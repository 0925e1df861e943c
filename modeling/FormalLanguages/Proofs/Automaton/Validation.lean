import FormalLanguages.Automaton.Pushdown.Machine
import FormalLanguages.Proofs.Answers
import Mathlib.Data.List.Pairwise
import Mathlib.Order.Basic

/-!
Valid pushdown automata. The checks on an automaton are passed exactly when it uses declared states
and symbols only and has one rule for a trigger. Only neighbours in the order of the rules are
compared; that is enough because rules are ordered by their triggers first.
-/

namespace FormalLanguages.Automaton.Pushdown

/-! ### Rules with one trigger -/

namespace Rule

/-- The order of rules by their triggers alone. -/
def compareTriggers : Rule → Rule → Ordering :=
  compareLex (compareOn source) (compareLex (compareOn input) (compareOn top))

instance : Std.TransCmp compareTriggers :=
  inferInstanceAs <| Std.TransCmp <|
    compareLex (compareOn source) (compareLex (compareOn input) (compareOn top))

theorem eq_of_compareTriggers {first second : Rule} (h : compareTriggers first second = .eq) :
    first.trigger = second.trigger := by
  obtain ⟨hsource, h⟩ := Ordering.then_eq_eq.mp h
  obtain ⟨hinput, htop⟩ := Ordering.then_eq_eq.mp h
  have hsource : first.source = second.source := Std.LawfulEqOrd.eq_of_compare hsource
  have hinput : first.input = second.input := Std.LawfulEqOrd.eq_of_compare hinput
  have htop : first.top = second.top := Std.LawfulEqOrd.eq_of_compare htop
  simp [trigger, hsource, hinput, htop]

theorem compareTriggers_eq_of_trigger {first second third : Rule}
    (h : first.trigger = second.trigger) :
    compareTriggers third first = compareTriggers third second := by
  obtain ⟨hsource, hinput, htop⟩ := Trigger.mk.inj h
  simp [compareTriggers, compareLex, compareOn, hsource, hinput, htop]

/-- A smaller rule has no larger trigger. -/
theorem isLE_compareTriggers {first second : Rule} (h : compare first second = .lt) :
    (compareTriggers first second).isLE := by
  have hfields : compare first second = (compareTriggers first second).then
      (compareLex (compareOn target) (compareOn replacement) first second) := by
    simp only [compare, compareFields, compareTriggers, compareLex, Ordering.then_assoc]
  rw [hfields] at h
  rcases Ordering.then_eq_lt.mp h with hlt | ⟨heq, -⟩
  · rw [hlt]
    rfl
  · rw [heq]
    rfl

/-- Between two rules with one trigger there is no rule with another one. -/
theorem trigger_eq_of_between {first second third : Rule} (h : compare first second = .lt)
    (h' : compare second third = .lt) (heq : first.trigger = third.trigger) :
    first.trigger = second.trigger := by
  have hback := isLE_compareTriggers h'
  rw [← compareTriggers_eq_of_trigger heq] at hback
  exact eq_of_compareTriggers (Std.OrientedCmp.isLE_antisymm (isLE_compareTriggers h) hback)

end Rule

/-- In a sorted list neighbours clash if any two rules do. -/
theorem clash?_eq_none_iff {rules : List Rule} (h : rules.Pairwise (compare · · = .lt)) :
    clash? rules = none ↔ rules.Pairwise fun first second => first.trigger ≠ second.trigger := by
  fun_induction clash? rules with
  | case1 first second rules htrigger =>
      have hnot : ¬ (first :: second :: rules).Pairwise fun a b => a.trigger ≠ b.trigger :=
        fun h => (List.pairwise_cons.mp h).1 second List.mem_cons_self htrigger
      simp [hnot]
  | case2 first second rules htrigger ih =>
      obtain ⟨hfirst, hrest⟩ := List.pairwise_cons.mp h
      have hlater : ∀ other ∈ second :: rules, first.trigger ≠ other.trigger := by
        intro other hother heq
        rcases List.mem_cons.mp hother with rfl | hother
        · exact htrigger heq
        · have hsecond := (List.pairwise_cons.mp hrest).1 other hother
          exact htrigger (Rule.trigger_eq_of_between (hfirst second List.mem_cons_self) hsecond heq)
      rw [ih hrest]
      exact ⟨List.Pairwise.cons hlater, List.Pairwise.of_cons⟩
  | case3 rules hshort =>
      cases rules with
      | nil => simp
      | cons first rules =>
          cases rules with
          | nil => simp
          | cons second rules => exact absurd rfl (hshort first second rules)

/-! ### Valid automata -/

/-- The rule uses declared states, letters and stack symbols only. -/
structure DeclaresUseOf (m : Pushdown) (rule : Rule) : Prop where
  source : rule.source ∈ m.states
  target : rule.target ∈ m.states
  input : ∀ c, rule.input = some c → c ∈ m.alphabet
  top : rule.top ∈ m.stackAlphabet
  replacement : ∀ c ∈ rule.replacement.toList, c ∈ m.stackAlphabet

/-- Only declared states and symbols are in use, and no two rules have one trigger. -/
structure Valid (m : Pushdown) : Prop where
  start : m.start ∈ m.states
  accepting : ∀ state ∈ m.accepting, state ∈ m.states
  startStack : m.startStack ∈ m.stackAlphabet
  rule : ∀ rule ∈ m.rules, m.DeclaresUseOf rule
  eq_of_trigger : ∀ rule ∈ m.rules, ∀ other ∈ m.rules, rule.trigger = other.trigger → rule = other

variable {m : Pushdown}

theorem checkStates_eq_ok_iff {states : List String} :
    m.checkStates states = .ok () ↔ ∀ state ∈ states, state ∈ m.states := by
  rw [checkStates, forM_eq_ok_iff]
  simp

theorem checkSymbols_eq_ok_iff {alphabet : Std.ExtTreeSet Char} {symbols : List Char} :
    checkSymbols alphabet symbols = .ok () ↔ ∀ c ∈ symbols, c ∈ alphabet := by
  rw [checkSymbols, forM_eq_ok_iff]
  simp

theorem checkRule_eq_ok_iff {rule : Rule} : m.checkRule rule = .ok () ↔ m.DeclaresUseOf rule := by
  simp only [checkRule, check_bind_eq_ok, checkStates_eq_ok_iff, checkSymbols_eq_ok_iff,
    List.forall_mem_cons]
  constructor
  · rintro ⟨⟨hsource, htarget, -⟩, hinput, htop, hreplacement⟩
    exact ⟨hsource, htarget, fun c hc => hinput c (by simp [hc]), htop, hreplacement⟩
  · rintro ⟨hsource, htarget, hinput, htop, hreplacement⟩
    exact ⟨⟨hsource, htarget, by simp⟩, fun c hc => hinput c (by simpa using hc), htop,
      hreplacement⟩

/-- No two neighbours of the set clash when a trigger determines its rule. -/
theorem clash?_toList_eq_none_iff (rules : Std.ExtTreeSet Rule) : clash? rules.toList = none ↔
    ∀ rule : Rule, rule ∈ rules → ∀ other : Rule, other ∈ rules →
      rule.trigger = other.trigger → rule = other := by
  have hsorted : rules.toList.Pairwise (compare · · = .lt) := rules.ordered_toList
  rw [clash?_eq_none_iff hsorted]
  constructor
  · intro hpairwise rule hrule other hother heq
    by_contra hne
    have : Std.Symm fun first second : Rule => first.trigger ≠ second.trigger :=
      ⟨fun _ _ hne => hne.symm⟩
    exact hpairwise.forall (Std.ExtTreeSet.mem_toList.mpr hrule)
      (Std.ExtTreeSet.mem_toList.mpr hother) hne heq
  · intro hinj
    refine hsorted.imp_of_mem fun {rule other} hrule hother hlt heq => ?_
    obtain rfl := hinj rule (Std.ExtTreeSet.mem_toList.mp hrule) other
      (Std.ExtTreeSet.mem_toList.mp hother) heq
    simp at hlt

theorem validate_eq_ok_iff : m.validate = .ok () ↔ m.Valid := by
  simp only [validate, check_bind_eq_ok, checkStates_eq_ok_iff, checkSymbols_eq_ok_iff,
    forM_eq_ok_iff, checkRule_eq_ok_iff, List.forall_mem_cons, Std.ExtTreeSet.mem_toList]
  constructor
  · rintro ⟨⟨hstart, haccepting⟩, ⟨hstack, -⟩, hrules, hclash⟩
    have hnone : clash? m.rules.toList = none := by
      split at hclash
      · exact absurd hclash (by simp)
      · assumption
    exact ⟨hstart, haccepting, hstack, hrules, (clash?_toList_eq_none_iff m.rules).mp hnone⟩
  · rintro ⟨hstart, haccepting, hstack, hrules, htriggers⟩
    rw [(clash?_toList_eq_none_iff m.rules).mpr htriggers]
    exact ⟨⟨hstart, haccepting⟩, ⟨hstack, by simp⟩, hrules, rfl⟩

end FormalLanguages.Automaton.Pushdown
