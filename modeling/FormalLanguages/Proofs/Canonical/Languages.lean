import FormalLanguages.Proofs.History

/-!
The languages of the canonical form. The goal derives the same chains after every stage, and every
other name that is left derives its non-empty chains.
-/

namespace FormalLanguages.Grammar

variable {g g' : Grammar}

theorem Canonization.Of.generates_snapshot {run : Canonization} {goal root : String}
    (h : run.Of g goal root) (hg : g.Closed) {snapshot : Stage × Grammar}
    (hsnapshot : snapshot ∈ run.snapshots) {chain : List Char} :
    snapshot.2.Generates chain ↔ g.Generates chain := by
  simp only [Canonization.snapshots, List.mem_cons, List.not_mem_nil, or_false] at hsnapshot
  rcases hsnapshot with rfl | rfl | rfl | rfl | rfl
  · exact h.generates_productive hg
  · exact h.generates_connected hg
  · exact h.generates_lambdaFree hg
  · exact h.generates_chainFree hg
  · exact h.generates_result hg

/-- The canonical form generates what the grammar generates, as do the grammars that the stages
leave. Apart from the goal it has names of the grammar only, which derive what they have derived
there, the empty chain aside. -/
theorem toCanonical_languages (hg : g.Reachable) (h : g.toCanonical = .ok g') :
    (∃ goal goal', g.goal = some goal ∧ g'.goal = some goal' ∧
      ∀ chain, g'.rules.Derives goal' chain ↔ g.rules.Derives goal chain) ∧
    (∃ run, g.canonize = .ok run ∧ run.result = g' ∧
      ∀ snapshot ∈ run.snapshots, ∀ chain, snapshot.2.Generates chain ↔ g.Generates chain) ∧
    ∀ name ∈ g'.nonTerminals, g'.goal ≠ some name → name ∈ g.nonTerminals ∧
      ∀ chain, g'.rules.Derives name chain ↔ g.rules.Derives name chain ∧ chain ≠ [] := by
  obtain ⟨run, goal, root, hrun, rfl, hof⟩ := toCanonical_eq_ok h
  refine ⟨⟨goal, root, hof.goal_eq, hof.result_goal, fun chain => ?_⟩,
    ⟨run, hrun, rfl, fun snapshot hsnapshot chain => ?_⟩, fun name hname hgoal => ?_⟩
  · rw [← generates_iff hof.goal_eq, ← generates_iff hof.result_goal]
    exact hof.generates_result hg.closed
  · exact hof.generates_snapshot hg.closed hsnapshot
  · refine hof.derives_result_iff hg.closed hname ?_
    rintro rfl
    exact hgoal hof.result_goal

theorem toCanonical_languages_nullableGoal :
    nullableGoal.Reachable ∧ ∃ g, nullableGoal.toCanonical = .ok g ∧
      ∀ name ∈ g.nonTerminals, g.goal ≠ some name → name ∈ nullableGoal.nonTerminals ∧
        ∀ chain, g.rules.Derives name chain ↔
          nullableGoal.rules.Derives name chain ∧ chain ≠ [] := by
  obtain ⟨g, hg⟩ := exists_toCanonical_nullableGoal
  exact ⟨reachable_nullableGoal, g, hg, (toCanonical_languages reachable_nullableGoal hg).2.2⟩

end FormalLanguages.Grammar
