import FormalLanguages.Proofs.Canonical.Stages

/-!
The canonical form made in place. No pass takes the goal away, so the goal that the last sweep asks
for is always there, and every refusal comes before the first pass. Hence work on a sheet is refused
exactly when there is no goal or the goal derives nothing, and a refusal leaves the sheet as it was.
-/

namespace FormalLanguages.Grammar

open RuleTable

variable {g : Grammar} {goal : String}

/-! ### The goal after the passes -/

theorem exists_goal_removeLambda (hgoal : g.goal = some goal) :
    ∃ root, (g.removeLambda goal).goal = some root := by
  rcases removeLambda_cases goal g with ⟨-, heq⟩ | ⟨-, -, fresh, -, heq⟩ | ⟨-, -, heq⟩
  · exact ⟨goal, by rw [heq, hgoal]⟩
  · exact ⟨fresh, by rw [heq]⟩
  · exact ⟨goal, by rw [heq, hgoal]⟩

/-- The grammar that the last sweep starts from has a goal. -/
theorem exists_requireGoal_removeChains (hgoal : g.goal = some goal) :
    ∃ root, ((g.removeBarren.removeUnreachable goal).removeLambda goal).removeChains.requireGoal =
      .ok root := by
  have hkept : (g.removeBarren.removeUnreachable goal).goal = some goal := hgoal
  obtain ⟨root, hroot⟩ := exists_goal_removeLambda hkept
  exact ⟨root, requireGoal_eq_ok.mpr hroot⟩

/-! ### All refusals -/

/-- There is no goal, or it derives nothing, or all five stages are made. -/
theorem canonize_cases (g : Grammar) :
    (g.goal = none ∧ g.canonize = .error .missingGoal) ∨
    (∃ goal, g.goal = some goal ∧ (¬ ∃ chain, g.rules.Derives goal chain) ∧
      g.canonize = .error .emptyLanguage) ∨
    ∃ run goal root, g.canonize = .ok run ∧ run.Of g goal root := by
  cases hgoal : g.goal with
  | none =>
      refine .inl ⟨rfl, ?_⟩
      rw [canonize, requireGoal, hgoal]
      rfl
  | some goal =>
      have hrequire : g.requireGoal = .ok goal := requireGoal_eq_ok.mpr hgoal
      by_cases hgenerating : goal ∈ g.rules.generating
      · obtain ⟨root, hroot⟩ := exists_requireGoal_removeChains hgoal
        have hrun : ∃ run, g.canonize = .ok run := by
          simp only [canonize, hrequire, bind, Except.bind, hgenerating, not_true_eq_false,
            if_false, pure, Except.pure, hroot]
          exact ⟨_, rfl⟩
        obtain ⟨run, hrun⟩ := hrun
        obtain ⟨goal, root, hof⟩ := canonize_inversion hrun
        exact .inr (.inr ⟨run, goal, root, hrun, hof⟩)
      · refine .inr (.inl ⟨goal, rfl, mt mem_generating_iff.mpr hgenerating, ?_⟩)
        simp only [canonize, hrequire, bind, Except.bind, hgenerating, not_false_eq_true, if_true]
        rfl

/-! ### Work on a sheet -/

namespace Work

@[simp] theorem on_change (pass : Grammar → Grammar) (sheet : Worksheet) :
    (change pass).on sheet = (.ok (), { sheet with grammar := pass sheet.grammar }) := rfl

@[simp] theorem on_publish (stage : Stage) (sheet : Worksheet) :
    (publish stage).on sheet = (.ok (), { sheet with
      published := sheet.published ++ stageLines (stage, sheet.grammar) }) := rfl

@[simp] theorem on_currentGoal (sheet : Worksheet) :
    currentGoal.on sheet = (sheet.grammar.requireGoal, sheet) := by
  simp [currentGoal]

end Work

/-- In place, a run leaves its result and publishes its lines; a refused run leaves everything as it
was. -/
theorem on_canonizeInPlace (sheet : Worksheet) :
    canonizeInPlace.on sheet =
      match sheet.grammar.canonize with
      | .ok run => (.ok (), { grammar := run.result, published := sheet.published ++ run.lines })
      | .error error => (.error error, sheet) := by
  obtain ⟨g, published⟩ := sheet
  rcases canonize_cases g with
    ⟨hgoal, hrun⟩ | ⟨goal, hgoal, hbarren, hrun⟩ | ⟨run, goal, root, hrun, h⟩
  · have hrequire : g.requireGoal = .error .missingGoal := by rw [requireGoal, hgoal]
    rw [hrun]
    simp only [canonizeInPlace, InPlace.on_bind, Work.on_currentGoal, hrequire]
  · have hrequire : g.requireGoal = .ok goal := requireGoal_eq_ok.mpr hgoal
    have hgenerating : goal ∉ g.rules.generating := mt mem_generating_iff.mp hbarren
    rw [hrun]
    simp only [canonizeInPlace, InPlace.on_bind, Work.on_currentGoal, hrequire, InPlace.on_get,
      hgenerating, not_false_eq_true, if_true, InPlace.on_throw]
  · have hrequire : g.requireGoal = .ok goal := requireGoal_eq_ok.mpr h.goal_eq
    have hgenerating : goal ∈ g.rules.generating := mem_generating_iff.mpr h.derives_goal
    have hroot : run.chainFree.requireGoal = .ok root := requireGoal_eq_ok.mpr h.root_eq
    rw [hrun]
    -- the sheet holds the grammars of the run, one after the other
    simp only [canonizeInPlace, InPlace.on_bind, Work.on_currentGoal, hrequire, InPlace.on_get,
      hgenerating, not_true_eq_false, if_false, Work.on_change, Work.on_publish,
      ← h.productive_eq, ← h.connected_eq, ← h.lambdaFree_eq, ← h.chainFree_eq, hroot,
      ← h.result_eq]
    simp [Canonization.lines, Canonization.snapshots]

/-- The canonical form is refused exactly when the goal is missing or derives nothing. The goal that
is asked for again after four passes is always there, so a refusal leaves the grammar as it was and
publishes nothing. -/
theorem canonizeInPlace_refusals (g : Grammar) (published : List String) :
    let outcome := canonizeInPlace.on { grammar := g, published }
    (outcome.1 = .error .missingGoal ↔ g.goal = none) ∧
    (outcome.1 = .error .emptyLanguage ↔
      ∃ goal, g.goal = some goal ∧ ∀ chain, ¬ g.rules.Derives goal chain) ∧
    (outcome.1 = .ok () ↔ ∃ goal, g.goal = some goal ∧ ∃ chain, g.rules.Derives goal chain) ∧
    (∀ goal, g.goal = some goal → ∃ root,
      ((g.removeBarren.removeUnreachable goal).removeLambda goal).removeChains.requireGoal =
        .ok root) ∧
    (∀ error, outcome.1 = .error error → outcome.2 = { grammar := g, published }) ∧
    g.toCanonical = outcome.1.map fun _ => outcome.2.grammar := by
  have hfound : ∀ goal, g.goal = some goal → ∃ root,
      ((g.removeBarren.removeUnreachable goal).removeLambda goal).removeChains.requireGoal =
        .ok root := fun goal hgoal => exists_requireGoal_removeChains hgoal
  simp only [on_canonizeInPlace, toCanonical]
  rcases canonize_cases g with
    ⟨hgoal, hrun⟩ | ⟨goal, hgoal, hbarren, hrun⟩ | ⟨run, goal, root, hrun, h⟩
  · refine ⟨?_, ?_, ?_, hfound, ?_, ?_⟩ <;> simp [hrun, hgoal, Except.map]
  · have hbarren : ∀ chain, ¬ g.rules.Derives goal chain := not_exists.mp hbarren
    refine ⟨?_, ?_, ?_, hfound, ?_, ?_⟩ <;> simp [hrun, hgoal, hbarren, Except.map]
  · refine ⟨?_, ?_, ?_, hfound, ?_, ?_⟩ <;> simp [hrun, h.goal_eq, h.derives_goal, Except.map]

end FormalLanguages.Grammar
