import FormalLanguages.Grammar.Canonical
import FormalLanguages.Proofs.ClosedGrammar
import FormalLanguages.Proofs.SymbolSets

/-!
The sweeps of the canonical form. Dropping the names that derive nothing changes no language, and
dropping the symbols that never occur changes no language of a name that does occur. Swept in this
order, a grammar has no useless symbol left.
-/

namespace FormalLanguages.Grammar

open RuleTable

variable {g : Grammar}

theorem mem_retainRules {test : Symbol → Bool} {rule : Rule} :
    rule ∈ (g.retainRules test).rules ↔
      rule ∈ g.rules ∧ rule.head ∈ g.nonTerminals ∧ ∀ symbol ∈ rule.body, test symbol = true := by
  simp [retainRules, mem_keep]

/-! ### Names that derive nothing -/

@[simp] theorem removeBarren_goal : g.removeBarren.goal = g.goal := rfl

theorem mem_removeBarren_nonTerminals {name : String} :
    name ∈ g.removeBarren.nonTerminals ↔
      name ∈ g.nonTerminals ∧ ∃ chain, g.rules.Derives name chain := by
  simp [removeBarren, retainRules, Std.ExtTreeSet.mem_ofList, mem_generating_iff]

/-- A rule stays when all names of its body derive something; its head then does, too. -/
theorem mem_removeBarren_rules (hg : g.Closed) {rule : Rule} :
    rule ∈ g.removeBarren.rules ↔
      rule ∈ g.rules ∧ ∀ name, .nonTerminal name ∈ rule.body →
        ∃ chain, g.rules.Derives name chain := by
  rw [removeBarren, mem_retainRules]
  constructor
  · rintro ⟨hrule, -, hbody⟩
    refine ⟨hrule, fun name hname => ?_⟩
    simpa [mem_generating_iff] using hbody _ hname
  · rintro ⟨hrule, hnames⟩
    obtain ⟨chain, hchain⟩ := Body.Reads.exists_of_forall hnames
    have hhead : ∃ chain, g.rules.Derives rule.head chain :=
      ⟨chain, derives_of_rule hrule hchain⟩
    refine ⟨hrule, ?_, fun symbol hsymbol => ?_⟩
    · simpa [Std.ExtTreeSet.mem_ofList, mem_generating_iff] using ⟨hg.head _ hrule, hhead⟩
    · cases symbol with
      | terminal c => rfl
      | nonTerminal name => simpa [mem_generating_iff] using hnames name hsymbol

theorem derives_removeBarren (hg : g.Closed) {name : String} {chain : List Char} :
    g.removeBarren.rules.Derives name chain ↔ g.rules.Derives name chain := by
  constructor
  · exact Derives.mono fun rule hrule => ((mem_removeBarren_rules hg).mp hrule).1
  · refine derives_induction (I := g.removeBarren.rules.Derives) ?_
    intro name body chain hrule hbody
    -- a rule that takes part in a derivation has no barren name in its body
    have hkept : ⟨name, body⟩ ∈ g.removeBarren.rules := by
      refine (mem_removeBarren_rules hg).mpr ⟨hrule, fun other hother => ?_⟩
      obtain ⟨part, hpart, -⟩ := hbody.exists_of_mem hother
      exact ⟨part, hpart⟩
    exact derives_of_rule hkept (hbody.mono fun _ _ _ h => h.2)

theorem generates_removeBarren (hg : g.Closed) {chain : List Char} :
    g.removeBarren.Generates chain ↔ g.Generates chain := by
  simp only [Generates, removeBarren_goal, derives_removeBarren hg]

theorem Closed.removeBarren (hg : g.Closed)
    (hgoal : ∀ goal, g.goal = some goal → ∃ chain, g.rules.Derives goal chain) :
    g.removeBarren.Closed where
  goal name hname := mem_removeBarren_nonTerminals.mpr ⟨hg.goal name hname, hgoal name hname⟩
  head rule hrule := by
    obtain ⟨hrule, hnames⟩ := (mem_removeBarren_rules hg).mp hrule
    obtain ⟨chain, hchain⟩ := Body.Reads.exists_of_forall hnames
    exact mem_removeBarren_nonTerminals.mpr
      ⟨hg.head _ hrule, chain, derives_of_rule hrule hchain⟩
  body rule hrule symbol hsymbol := by
    obtain ⟨hrule, hnames⟩ := (mem_removeBarren_rules hg).mp hrule
    have hdeclared := hg.body _ hrule _ hsymbol
    cases symbol with
    | terminal c => exact hdeclared
    | nonTerminal name =>
        exact mem_removeBarren_nonTerminals.mpr ⟨hdeclared, hnames name hsymbol⟩

/-! ### Symbols that never occur -/

variable {goal : String}

@[simp] theorem removeUnreachable_goal : (g.removeUnreachable goal).goal = g.goal := rfl

theorem mem_removeUnreachable_terminals {c : Char} :
    c ∈ (g.removeUnreachable goal).terminals ↔
      c ∈ g.terminals ∧ g.rules.Occurs goal (.terminal c) := by
  simp [removeUnreachable, retainRules, Std.ExtTreeSet.mem_ofList, mem_reachableLetters_iff]

theorem mem_removeUnreachable_nonTerminals {name : String} :
    name ∈ (g.removeUnreachable goal).nonTerminals ↔
      name ∈ g.nonTerminals ∧ g.rules.Occurs goal (.nonTerminal name) := by
  simp [removeUnreachable, retainRules, Std.ExtTreeSet.mem_ofList, mem_reachable_iff]

/-- A rule stays when its head occurs; all of its body then does, too. -/
theorem mem_removeUnreachable_rules (hg : g.Closed) {rule : Rule} :
    rule ∈ (g.removeUnreachable goal).rules ↔
      rule ∈ g.rules ∧ g.rules.Occurs goal (.nonTerminal rule.head) := by
  rw [removeUnreachable, mem_retainRules]
  simp only [Std.ExtTreeSet.mem_ofList, List.contains_iff_mem, List.mem_filter,
    Std.ExtTreeSet.mem_toList, decide_eq_true_eq, mem_reachable_iff]
  constructor
  · rintro ⟨hrule, ⟨-, hhead⟩, -⟩
    exact ⟨hrule, hhead⟩
  · rintro ⟨hrule, hhead⟩
    refine ⟨hrule, ⟨hg.head _ hrule, hhead⟩, fun symbol hsymbol => ?_⟩
    have hoccurs := hhead.of_rule hrule hsymbol
    cases symbol with
    | terminal c => simpa [mem_reachableLetters_iff] using hoccurs
    | nonTerminal name => simpa [mem_reachable_iff] using hoccurs

theorem derives_removeUnreachable (hg : g.Closed) {name : String} {chain : List Char}
    (hname : g.rules.Occurs goal (.nonTerminal name)) :
    (g.removeUnreachable goal).rules.Derives name chain ↔ g.rules.Derives name chain := by
  constructor
  · exact Derives.mono fun rule hrule => ((mem_removeUnreachable_rules hg).mp hrule).1
  · intro h
    refine derives_induction (I := fun name chain => g.rules.Occurs goal (.nonTerminal name) →
      (g.removeUnreachable goal).rules.Derives name chain) ?_ h hname
    intro name body chain hrule hbody hname
    refine derives_of_rule ((mem_removeUnreachable_rules hg).mpr ⟨hrule, hname⟩) ?_
    exact hbody.mono fun other hother _ h => h.2 (hname.of_rule hrule hother)

theorem generates_removeUnreachable (hg : g.Closed) (hgoal : g.goal = some goal)
    {chain : List Char} : (g.removeUnreachable goal).Generates chain ↔ g.Generates chain := by
  rw [generates_iff hgoal, generates_iff (removeUnreachable_goal.trans hgoal)]
  exact derives_removeUnreachable hg (occurs_nonTerminal_iff.mpr .refl)

/-- The same symbols occur after the sweep. -/
theorem occurs_removeUnreachable (hg : g.Closed) {symbol : Symbol} :
    (g.removeUnreachable goal).rules.Occurs goal symbol ↔ g.rules.Occurs goal symbol := by
  have hpath {name : String} (h : Relation.ReflTransGen g.rules.Refers goal name) :
      Relation.ReflTransGen (g.removeUnreachable goal).rules.Refers goal name := by
    induction h with
    | refl => exact .refl
    | tail hhead hrefers ih =>
        obtain ⟨body, hrule, hname⟩ := hrefers
        have hoccurs := occurs_nonTerminal_iff.mpr hhead
        exact ih.tail ⟨body, (mem_removeUnreachable_rules hg).mpr ⟨hrule, hoccurs⟩, hname⟩
  constructor
  · exact Occurs.mono fun rule hrule => ((mem_removeUnreachable_rules hg).mp hrule).1
  · intro h
    rcases occurs_iff.mp h with hgoal | ⟨head, body, hhead, hrule, hsymbol⟩
    · exact occurs_iff.mpr (.inl hgoal)
    · have hkept : ⟨head, body⟩ ∈ (g.removeUnreachable goal).rules :=
        (mem_removeUnreachable_rules hg).mpr ⟨hrule, occurs_nonTerminal_iff.mpr hhead⟩
      exact occurs_iff.mpr (.inr ⟨head, body, hpath hhead, hkept, hsymbol⟩)

theorem Closed.removeUnreachable (hg : g.Closed) (hgoal : g.goal = some goal) :
    (g.removeUnreachable goal).Closed where
  goal name hname := by
    obtain rfl : goal = name := Option.some.inj (hgoal.symm.trans hname)
    exact mem_removeUnreachable_nonTerminals.mpr
      ⟨hg.goal _ hgoal, occurs_nonTerminal_iff.mpr .refl⟩
  head rule hrule := by
    obtain ⟨hrule, hhead⟩ := (mem_removeUnreachable_rules hg).mp hrule
    exact mem_removeUnreachable_nonTerminals.mpr ⟨hg.head _ hrule, hhead⟩
  body rule hrule symbol hsymbol := by
    obtain ⟨hrule, hhead⟩ := (mem_removeUnreachable_rules hg).mp hrule
    have hdeclared := hg.body _ hrule _ hsymbol
    have hoccurs := hhead.of_rule hrule hsymbol
    cases symbol with
    | terminal c => exact mem_removeUnreachable_terminals.mpr ⟨hdeclared, hoccurs⟩
    | nonTerminal name => exact mem_removeUnreachable_nonTerminals.mpr ⟨hdeclared, hoccurs⟩

end FormalLanguages.Grammar
