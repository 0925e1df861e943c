import FormalLanguages.Grammar.Canonical
import FormalLanguages.Proofs.ClosedGrammar
import FormalLanguages.Proofs.SymbolSets

/-!
The removal of chain bodies. A head takes over the other bodies of all names that its chain bodies
lead to, and no language changes: a derivation that follows a path of chain bodies ends it with
some other body, which the head now has itself.
-/

namespace FormalLanguages

open Relation

theorem Body.isChain_iff {body : Body} :
    body.isChain = true ↔ ∃ name, body = [.nonTerminal name] := by
  unfold Body.isChain
  split
  · simp
  · rename_i hother
    simp only [Bool.false_eq_true, false_iff]
    rintro ⟨name, rfl⟩
    exact hother name rfl

theorem Body.isChain_cons_cons (first second : Symbol) (rest : Body) :
    Body.isChain (first :: second :: rest) = false := by
  cases first <;> rfl

/-- The head has a chain body with the name. -/
def RuleTable.Chains (rules : RuleTable) (head name : String) : Prop :=
  ⟨head, [.nonTerminal name]⟩ ∈ rules

namespace RuleTable

variable {rules : RuleTable}

theorem refers_keep_isChain {head name : String} :
    (rules.keep (·.body.isChain)).Refers head name ↔ rules.Chains head name := by
  simp only [Refers, mem_keep, Body.isChain_iff, Chains]
  constructor
  · rintro ⟨_, ⟨hrule, other, rfl⟩, hname⟩
    obtain rfl : name = other := by simpa using hname
    exact hrule
  · intro h
    exact ⟨_, ⟨h, name, rfl⟩, List.mem_singleton_self _⟩

theorem mem_reachable_keep_isChain {head name : String} :
    name ∈ (rules.keep (·.body.isChain)).reachable head ↔ ReflTransGen rules.Chains head name := by
  have heq : (rules.keep (·.body.isChain)).Refers = rules.Chains :=
    funext fun _ => funext fun _ => propext refers_keep_isChain
  rw [mem_reachable_iff_refers, heq]

/-- What a path of chain bodies leads to is derived at its start. -/
theorem derives_of_chains {head name : String} (h : ReflTransGen rules.Chains head name)
    {chain : List Char} (hchain : rules.Derives name chain) : rules.Derives head chain := by
  induction h using ReflTransGen.head_induction_on with
  | refl => exact hchain
  | head hstep _ ih => exact derives_of_rule hstep (Body.Reads.singleton_iff.mpr ih)

end RuleTable

namespace Grammar

open RuleTable

variable {g : Grammar}

@[simp] theorem removeChains_nonTerminals : g.removeChains.nonTerminals = g.nonTerminals := rfl

@[simp] theorem removeChains_goal : g.removeChains.goal = g.goal := rfl

/-- The bodies of a head are the other bodies of all names that its chain bodies lead to. -/
theorem mem_removeChains_rules (hg : g.Closed) {head : String} {body : Body} :
    ⟨head, body⟩ ∈ g.removeChains.rules ↔
      body.isChain = false ∧ ∃ name, ReflTransGen g.rules.Chains head name ∧
        ⟨name, body⟩ ∈ g.rules := by
  simp only [removeChains, Std.ExtTreeSet.mem_insertMany_list, List.contains_iff_mem, mem_keep,
    Bool.not_eq_true', List.mem_flatMap, Std.ExtTreeSet.mem_toList, mem_reachable_keep_isChain,
    List.mem_map, mem_bodies, Rule.mk.injEq]
  constructor
  · rintro (⟨hrule, hother⟩ | ⟨_, -, name, hpath, _, ⟨hrule, hother⟩, rfl, rfl⟩)
    · exact ⟨hother, head, .refl, hrule⟩
    · exact ⟨hother, name, hpath, hrule⟩
  · rintro ⟨hother, name, hpath, hrule⟩
    -- a head at the start of a longer path has a chain rule, so it is declared
    cases hpath using ReflTransGen.head_induction_on with
    | refl => exact .inl ⟨hrule, hother⟩
    | head hstep hrest =>
        exact .inr ⟨head, hg.head _ hstep, name, .head hstep hrest, body, ⟨hrule, hother⟩, rfl, rfl⟩

theorem derives_removeChains (hg : g.Closed) {name : String} {chain : List Char} :
    g.removeChains.rules.Derives name chain ↔ g.rules.Derives name chain := by
  constructor
  · refine derives_induction (I := g.rules.Derives) ?_
    intro head body chain hrule hreads
    obtain ⟨-, name, hpath, hbody⟩ := (mem_removeChains_rules hg).mp hrule
    exact derives_of_chains hpath (derives_of_rule hbody (hreads.mono fun _ _ _ h => h.2))
  · refine derives_induction (I := g.removeChains.rules.Derives) ?_
    intro head body chain hrule hreads
    have hreads : body.Reads g.removeChains.rules.Derives chain := hreads.mono fun _ _ _ h => h.2
    by_cases hchain : body.isChain = true
    · obtain ⟨next, rfl⟩ := Body.isChain_iff.mp hchain
      -- the other name has a body that is no chain, and the head inherits it
      obtain ⟨expansion, hexpansion, hreads⟩ := derives_iff.mp (Body.Reads.singleton_iff.mp hreads)
      obtain ⟨hother, name, hpath, hbody⟩ := (mem_removeChains_rules hg).mp hexpansion
      have hinherited : ⟨head, expansion⟩ ∈ g.removeChains.rules :=
        (mem_removeChains_rules hg).mpr ⟨hother, name, .head hrule hpath, hbody⟩
      exact derives_of_rule hinherited hreads
    · have hkept : ⟨head, body⟩ ∈ g.removeChains.rules :=
        (mem_removeChains_rules hg).mpr ⟨by simpa using hchain, head, .refl, hrule⟩
      exact derives_of_rule hkept hreads

theorem generates_removeChains (hg : g.Closed) {chain : List Char} :
    g.removeChains.Generates chain ↔ g.Generates chain := by
  simp only [Generates, removeChains_goal, derives_removeChains hg]

theorem Closed.removeChains (hg : g.Closed) : g.removeChains.Closed where
  goal := hg.goal
  head rule hrule := by
    obtain ⟨-, name, hpath, hbody⟩ := (mem_removeChains_rules hg).mp hrule
    cases hpath using ReflTransGen.head_induction_on with
    | refl => exact hg.head ⟨rule.head, rule.body⟩ hbody
    | @head _ next hstep _ => exact hg.head ⟨rule.head, [.nonTerminal next]⟩ hstep
  body rule hrule symbol hsymbol := by
    obtain ⟨-, name, -, hbody⟩ := (mem_removeChains_rules hg).mp hrule
    exact hg.body _ hbody symbol hsymbol

end Grammar

end FormalLanguages
