import FormalLanguages.Proofs.Alphabets
import FormalLanguages.Proofs.Canonical.Stages
import FormalLanguages.Proofs.Chomsky.Splitting
import FormalLanguages.Proofs.NameSupply

/-!
Names that are made up. A base of more than one character gives a legible name of more than one
character, which no terminal can be. All bases of the canonical form and of the Chomsky form are
that long, since declared names are not empty; so both forms keep an alphabet legible.
-/

namespace FormalLanguages

/-! ### One name -/

/-- Every candidate of a long base is a long name, so the one that is free is too. -/
theorem isLongName_fresh {base : String} (h : 1 < base.length) (supply : NameSupply) :
    IsLongName (supply.fresh base).1 := by
  obtain ⟨primes, -, hname⟩ := supply.exists_leastFree base
  have hlength := length_candidate base primes
  rw [hname]
  refine ⟨⟨?_, fun c hc => (legible_of_mem_candidate hc).1,
    fun c hc => (legible_of_mem_candidate hc).2⟩, by omega⟩
  intro hempty
  rw [hempty, String.length_empty] at hlength
  omega

theorem length_pos_of_ne_empty {name : String} (h : name ≠ "") : 0 < name.length := by
  have hlength := mt String.length_eq_zero_iff.mp h
  omega

namespace Grammar

variable {g g' : Grammar} {goal : String}

/-! ### The canonical form -/

theorem mem_nonTerminals_removeLambda {name : String}
    (h : name ∈ (g.removeLambda goal).nonTerminals) : name ∈ g.nonTerminals ∨
      name = ((NameSupply.mk g.nonTerminals []).fresh (goal ++ "'")).1 := by
  simp only [removeLambda] at h
  split at h
  · exact .inl h
  · split at h
    · simp only [Std.ExtTreeSet.mem_insert, Std.compare_eq_iff_eq] at h
      exact h.symm.imp_right Eq.symm
    · exact .inl h

theorem removeLambda_terminals : (g.removeLambda goal).terminals = g.terminals := by
  simp only [removeLambda]
  split
  · rfl
  · split <;> rfl

theorem Legible.removeBarren (hg : g.Legible) : g.removeBarren.Legible :=
  hg.of_subset (fun _ hc => hc) fun _ hname => .inl (mem_removeBarren_nonTerminals.mp hname).1

theorem Legible.removeUnreachable (hg : g.Legible) : (g.removeUnreachable goal).Legible :=
  hg.of_subset (fun _ hc => (mem_removeUnreachable_terminals.mp hc).1)
    fun _ hname => .inl (mem_removeUnreachable_nonTerminals.mp hname).1

theorem Legible.removeLambda (hg : g.Legible) (hgoal : goal ≠ "") :
    (g.removeLambda goal).Legible := by
  refine hg.of_subset (fun c hc => ?_) fun name hname => ?_
  · rwa [removeLambda_terminals] at hc
  · refine (mem_nonTerminals_removeLambda hname).imp_right fun hfresh => ?_
    have hlength : 1 < (goal ++ "'").length := by
      have hpos := length_pos_of_ne_empty hgoal
      rw [String.length_append]
      exact Nat.lt_add_of_pos_left hpos
    rw [hfresh]
    exact isLongName_fresh hlength _

theorem Legible.removeChains (hg : g.Legible) : g.removeChains.Legible :=
  hg.of_subset (fun _ hc => hc) fun _ hname => .inl hname

theorem Canonization.Of.legible_result {run : Canonization} {root : String}
    (h : run.Of g goal root) (hg : g.Legible) (hgoal : goal ≠ "") : run.result.Legible := by
  rw [h.result_eq, h.chainFree_eq, h.lambdaFree_eq, h.connected_eq, h.productive_eq]
  have hlambdaFree : ((g.removeBarren.removeUnreachable goal).removeLambda goal).Legible :=
    hg.removeBarren.removeUnreachable.removeLambda hgoal
  exact hlambdaFree.removeChains.removeBarren.removeUnreachable

/-! ### The Chomsky form -/

namespace Splitting

variable {s : Splitting}

/-- Every name that has been made up is legible and has more than one character. -/
def IssuesLongNames (s : Splitting) : Prop :=
  ∀ name ∈ s.supply.issued, IsLongName name

theorem IssuesLongNames.invent (hs : s.IssuesLongNames) {role : Role}
    (hrole : 1 < role.base.length) : (s.invent role).2.IssuesLongNames := by
  intro name hname
  rcases mem_invent_issued.mp hname with hold | rfl
  · exact hs name hold
  · exact isLongName_fresh hrole s.supply

theorem IssuesLongNames.lift (hs : s.IssuesLongNames) {role : Char → Role}
    (hrole : ∀ c, 1 < (role c).base.length) (symbol : Symbol) :
    (s.lift role symbol).2.IssuesLongNames := by
  cases symbol with
  | nonTerminal name => exact hs
  | terminal c =>
      cases hlookup : s.roles.lookup (role c) with
      | some name =>
          rw [lift_of_some hlookup]
          exact hs
      | none =>
          rw [lift_of_none hlookup]
          exact hs.invent (hrole c)

theorem one_lt_length_bracket (c : Char) : 1 < (Role.bracket c).base.length := by
  have hopen : "[".length = 1 := rfl
  have hclose : "]".length = 1 := rfl
  simp [Role.base, hopen, hclose]

theorem one_lt_length_standIn {head : String} (h : head ≠ "") (c : Char) :
    1 < (Role.standIn head c).base.length := by
  have hpos := length_pos_of_ne_empty h
  simp [Role.base, hpos]

/-- Every symbol adds at least one character to the base of a remainder. -/
theorem length_le_length_base {body : Body} (h : ∀ symbol ∈ body, symbol.name ≠ "") :
    body.length ≤ (Role.remainder body).base.length := by
  induction body with
  | nil => simp
  | cons symbol body ih =>
      have hsymbol := length_pos_of_ne_empty (h symbol List.mem_cons_self)
      have hbody := ih fun other hother => h other (List.mem_cons_of_mem symbol hother)
      simp [Role.base] at hbody ⊢
      omega

theorem IssuesLongNames.split {first second : Symbol} {rest : Body} (hs : s.IssuesLongNames)
    (h : ∀ symbol ∈ first :: second :: rest, symbol.name ≠ "") :
    (split first second rest s).2.IssuesLongNames := by
  induction rest generalizing first second s with
  | nil => exact (hs.lift one_lt_length_bracket first).lift one_lt_length_bracket second
  | cons third rest ih =>
      have hleft := hs.lift one_lt_length_bracket first
      have htail : ∀ symbol ∈ second :: third :: rest, symbol.name ≠ "" :=
        fun symbol hsymbol => h symbol (List.mem_cons_of_mem first hsymbol)
      cases hlookup : (s.lift .bracket first).2.roles.lookup
          (.remainder (second :: third :: rest)) with
      | some name =>
          rw [split_of_some hlookup]
          exact hleft
      | none =>
          have hbase := length_le_length_base htail
          rw [split_of_none hlookup]
          apply ih _ htail
          apply hleft.invent
          simp only [List.length_cons] at hbase
          omega

theorem IssuesLongNames.addSplit (hs : s.IssuesLongNames) {rule : Rule} (hhead : rule.head ≠ "")
    (hbody : ∀ symbol ∈ rule.body, symbol.name ≠ "") (goal : Option String) :
    (s.addSplit goal rule).IssuesLongNames := by
  obtain ⟨head, body⟩ := rule
  match body with
  | [] =>
      simp only [Splitting.addSplit]
      split
      · exact hs
      · exact hs
  | [.terminal c] => exact hs
  | [.nonTerminal name] => exact hs
  | [first, second] =>
      rw [addSplit_pair]
      have hrole := one_lt_length_standIn hhead
      exact (hs.lift hrole first).lift hrole second
  | first :: second :: third :: rest =>
      rw [addSplit_long]
      exact hs.split hbody

end Splitting

theorem Legible.symbol_name_ne_empty (hg : g.Legible) {symbol : Symbol}
    (h : g.Declares symbol) : symbol.name ≠ "" := by
  cases symbol with
  | terminal c => simp [Symbol.name]
  | nonTerminal name => exact (hg.name name h).ne_empty

theorem Splitting.IssuesLongNames.foldl_addSplit {s : Splitting} (hs : s.IssuesLongNames)
    (hg : g.Legible) (hclosed : g.Closed) {rules : List Rule}
    (hrules : ∀ rule ∈ rules, rule ∈ g.rules) :
    (rules.foldl (Splitting.addSplit g.goal) s).IssuesLongNames := by
  induction rules generalizing s with
  | nil => exact hs
  | cons rule rules ih =>
      have hrule := hrules rule List.mem_cons_self
      apply ih (hs.addSplit _ _ g.goal) fun other hother =>
        hrules other (List.mem_cons_of_mem rule hother)
      · exact (hg.name _ (hclosed.head rule hrule)).ne_empty
      · intro symbol hsymbol
        exact hg.symbol_name_ne_empty (hclosed.body rule hrule symbol hsymbol)

theorem Legible.toChomsky (hg : g.Legible) (hclosed : g.Closed) : g.toChomsky.Legible := by
  have hstart : Splitting.IssuesLongNames { supply := { taken := g.nonTerminals } } := by
    simp [Splitting.IssuesLongNames]
  have hissued := hstart.foldl_addSplit hg hclosed
    fun rule hrule => Std.ExtTreeSet.mem_toList.mp hrule
  refine hg.of_subset (fun c hc => hc) fun name hname => ?_
  simp only [Grammar.toChomsky, Std.ExtTreeSet.mem_insertMany_list, List.contains_iff_mem] at hname
  exact hname.imp_right (hissued name)

end Grammar

end FormalLanguages
