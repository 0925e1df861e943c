import FormalLanguages.Proofs.Canonical.Form

/-!
The languages of the Chomsky form. Every declared name derives what the kept rules derive, and a
canonical grammar loses no rule at all.
-/

namespace FormalLanguages.Grammar

open RuleTable

variable {g g' : Grammar}

/-- A canonical grammar has no rule that the Chomsky form drops. -/
theorem IsCanonical.keptRules_eq {goal : String} (h : g.IsCanonical goal) :
    g.keptRules = g.rules := by
  refine Std.ExtTreeSet.ext_mem fun rule => ?_
  rw [mem_keptRules]
  constructor
  · exact And.left
  · intro hrule
    refine ⟨hrule, ?_, fun hnil => ?_⟩
    · by_contra hchain
      obtain ⟨name, hbody⟩ := Body.isChain_iff.mp (eq_true_of_ne_false hchain)
      exact h.no_chain rule hrule name hbody
    · have hmem : ⟨rule.head, []⟩ ∈ g.rules := by
        rw [← hnil]
        exact hrule
      rw [h.goal_eq, (h.nil_body rule.head hmem).1]

theorem IsCanonical.derives_toChomsky_iff {goal : String} (h : g.IsCanonical goal) {name : String}
    (hname : name ∈ g.nonTerminals) {chain : List Char} :
    g.toChomsky.rules.Derives name chain ↔ g.rules.Derives name chain := by
  rw [Grammar.derives_toChomsky_iff h.closed hname, h.keptRules_eq]

theorem IsCanonical.generates_toChomsky_iff {goal : String} (h : g.IsCanonical goal)
    {chain : List Char} : g.toChomsky.Generates chain ↔ g.Generates chain := by
  have hgoal : g.toChomsky.goal = some goal := h.goal_eq
  rw [generates_iff h.goal_eq, generates_iff hgoal]
  exact h.derives_toChomsky_iff (h.closed.goal goal h.goal_eq)

/-- The Chomsky form of a canonical grammar has the empty body at most for its goal, and then no
body refers to the goal. -/
theorem IsCanonical.isChomsky_toChomsky {goal : String} (h : g.IsCanonical goal) :
    g.toChomsky.rules.IsChomsky := by
  intro rule hrule
  refine (shape_toChomsky h.closed hrule).imp_right fun ⟨hnil, hgoal, hold⟩ => ⟨hnil, ?_⟩
  intro hmentions
  obtain ⟨other, hother, hmem⟩ :=
    mentions_of_toChomsky h.closed (h.closed.goal _ hgoal) hmentions
  obtain ⟨hhead, hfree⟩ := h.nil_body _ hold
  rw [hhead] at hmem
  exact hfree other hother hmem

/-- The Chomsky form keeps the language that a declared name has without the dropped rules. No rule
of a canonical form is dropped, so there every declared name and the goal keep their languages. -/
theorem toChomsky_languages (hg : g.Reachable) :
    (∀ name ∈ g.nonTerminals, ∀ chain,
      g.toChomsky.rules.Derives name chain ↔ g.keptRules.Derives name chain) ∧
    ∀ g', g.toCanonical = .ok g' → g'.keptRules = g'.rules ∧
      (∀ name ∈ g'.nonTerminals, ∀ chain,
        g'.toChomsky.rules.Derives name chain ↔ g'.rules.Derives name chain) ∧
      ∀ chain, g'.toChomsky.Generates chain ↔ g'.Generates chain := by
  refine ⟨fun name hname chain => derives_toChomsky_iff hg.closed hname, fun g' h => ?_⟩
  obtain ⟨goal, hcanonical⟩ := hg.closed.isCanonical_toCanonical h
  exact ⟨hcanonical.keptRules_eq, fun name hname chain => hcanonical.derives_toChomsky_iff hname,
    fun chain => hcanonical.generates_toChomsky_iff⟩

theorem toChomsky_languages_nullableGoal :
    nullableGoal.Reachable ∧ (∀ name ∈ nullableGoal.nonTerminals, ∀ chain,
      nullableGoal.toChomsky.rules.Derives name chain ↔
        nullableGoal.keptRules.Derives name chain) ∧
    ∃ g, nullableGoal.toCanonical = .ok g ∧ g.keptRules = g.rules := by
  obtain ⟨g, hg⟩ := exists_toCanonical_nullableGoal
  have h := toChomsky_languages reachable_nullableGoal
  exact ⟨reachable_nullableGoal, h.1, g, hg, (h.2 g hg).1⟩

end FormalLanguages.Grammar
