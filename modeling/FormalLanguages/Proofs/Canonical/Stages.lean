import FormalLanguages.Proofs.Canonical.ChainRules
import FormalLanguages.Proofs.Canonical.LambdaRules
import FormalLanguages.Proofs.Canonical.Sweep

/-!
The five stages of the canonical form, one after the other. Each of them leaves a closed grammar
that generates the same chains.
-/

namespace FormalLanguages.Grammar

open RuleTable

variable {g : Grammar}

/-- The stages of a run, from a goal that derives something to the goal in the end. -/
structure Canonization.Of (g : Grammar) (goal root : String) (run : Canonization) : Prop where
  goal_eq : g.goal = some goal
  derives_goal : ∃ chain, g.rules.Derives goal chain
  productive_eq : run.productive = g.removeBarren
  connected_eq : run.connected = run.productive.removeUnreachable goal
  lambdaFree_eq : run.lambdaFree = run.connected.removeLambda goal
  chainFree_eq : run.chainFree = run.lambdaFree.removeChains
  root_eq : run.chainFree.goal = some root
  result_eq : run.result = run.chainFree.removeBarren.removeUnreachable root

theorem canonize_inversion {run : Canonization} (h : g.canonize = .ok run) :
    ∃ goal root, run.Of g goal root := by
  obtain ⟨goal, hgoal, h⟩ := bind_eq_ok.mp h
  split at h
  · exact absurd h (by simp [throw, throwThe, MonadExceptOf.throw, bind, Except.bind])
  · rename_i hgenerating
    rw [Decidable.not_not, mem_generating_iff] at hgenerating
    obtain ⟨root, hroot, h⟩ := bind_eq_ok.mp h
    obtain rfl := Except.ok.inj h
    exact ⟨goal, root, ⟨requireGoal_eq_ok.mp hgoal, hgenerating, rfl, rfl, rfl, rfl,
      requireGoal_eq_ok.mp hroot, rfl⟩⟩

theorem toCanonical_eq_ok {g' : Grammar} (h : g.toCanonical = .ok g') :
    ∃ run goal root, g.canonize = .ok run ∧ run.result = g' ∧ run.Of g goal root := by
  cases hrun : g.canonize with
  | error e => simp [toCanonical, hrun, Except.map] at h
  | ok run =>
      obtain ⟨goal, root, hof⟩ := canonize_inversion hrun
      obtain rfl : run.result = g' := by simpa [toCanonical, hrun, Except.map] using h
      exact ⟨run, goal, root, rfl, rfl, hof⟩

namespace Canonization.Of

variable {run : Canonization} {goal root : String}

theorem productive_goal (h : run.Of g goal root) : run.productive.goal = some goal := by
  rw [h.productive_eq]
  exact h.goal_eq

theorem connected_goal (h : run.Of g goal root) : run.connected.goal = some goal := by
  rw [h.connected_eq]
  exact h.productive_goal

theorem lambdaFree_goal (h : run.Of g goal root) : run.lambdaFree.goal = some root := by
  rw [← h.root_eq, h.chainFree_eq, removeChains_goal]

theorem result_goal (h : run.Of g goal root) : run.result.goal = some root := by
  rw [h.result_eq]
  exact h.root_eq

theorem closed_productive (h : run.Of g goal root) (hg : g.Closed) : run.productive.Closed := by
  rw [h.productive_eq]
  refine hg.removeBarren fun name hname => ?_
  obtain rfl := Option.some.inj (h.goal_eq.symm.trans hname)
  exact h.derives_goal

theorem closed_connected (h : run.Of g goal root) (hg : g.Closed) : run.connected.Closed := by
  rw [h.connected_eq]
  exact (h.closed_productive hg).removeUnreachable h.productive_goal

theorem closed_lambdaFree (h : run.Of g goal root) (hg : g.Closed) : run.lambdaFree.Closed := by
  rw [h.lambdaFree_eq]
  exact (h.closed_connected hg).removeLambda h.connected_goal

theorem closed_chainFree (h : run.Of g goal root) (hg : g.Closed) : run.chainFree.Closed := by
  rw [h.chainFree_eq]
  exact (h.closed_lambdaFree hg).removeChains

theorem generates_productive (h : run.Of g goal root) (hg : g.Closed) {chain : List Char} :
    run.productive.Generates chain ↔ g.Generates chain := by
  rw [h.productive_eq, generates_removeBarren hg]

theorem generates_connected (h : run.Of g goal root) (hg : g.Closed) {chain : List Char} :
    run.connected.Generates chain ↔ g.Generates chain := by
  rw [h.connected_eq, generates_removeUnreachable (h.closed_productive hg) h.productive_goal,
    h.generates_productive hg]

theorem generates_lambdaFree (h : run.Of g goal root) (hg : g.Closed) {chain : List Char} :
    run.lambdaFree.Generates chain ↔ g.Generates chain := by
  rw [h.lambdaFree_eq, generates_removeLambda (h.closed_connected hg) h.connected_goal,
    h.generates_connected hg]

theorem generates_chainFree (h : run.Of g goal root) (hg : g.Closed) {chain : List Char} :
    run.chainFree.Generates chain ↔ g.Generates chain := by
  rw [h.chainFree_eq, generates_removeChains (h.closed_lambdaFree hg), h.generates_lambdaFree hg]

/-- The last sweep finds a goal that still derives something. -/
theorem derives_root (h : run.Of g goal root) (hg : g.Closed) :
    ∃ chain, run.chainFree.rules.Derives root chain := by
  obtain ⟨chain, hchain⟩ := h.derives_goal
  refine ⟨chain, (generates_iff h.root_eq).mp ?_⟩
  exact (h.generates_chainFree hg).mpr ((generates_iff h.goal_eq).mpr hchain)

theorem closed_swept (h : run.Of g goal root) (hg : g.Closed) :
    run.chainFree.removeBarren.Closed := by
  refine (h.closed_chainFree hg).removeBarren fun name hname => ?_
  obtain rfl := Option.some.inj (h.root_eq.symm.trans hname)
  exact h.derives_root hg

theorem closed_result (h : run.Of g goal root) (hg : g.Closed) : run.result.Closed := by
  rw [h.result_eq]
  exact (h.closed_swept hg).removeUnreachable h.root_eq

theorem generates_result (h : run.Of g goal root) (hg : g.Closed) {chain : List Char} :
    run.result.Generates chain ↔ g.Generates chain := by
  rw [h.result_eq, generates_removeUnreachable (h.closed_swept hg) h.root_eq,
    generates_removeBarren (h.closed_chainFree hg), h.generates_chainFree hg]

/-- A rule of the result is a rule from before the last sweep. -/
theorem mem_chainFree_of_mem_result (h : run.Of g goal root) (hg : g.Closed) {rule : Rule}
    (hrule : rule ∈ run.result.rules) : rule ∈ run.chainFree.rules := by
  rw [h.result_eq, mem_removeUnreachable_rules (h.closed_swept hg),
    mem_removeBarren_rules (h.closed_chainFree hg)] at hrule
  exact hrule.1.1

theorem derives_result (h : run.Of g goal root) (hg : g.Closed) {name : String}
    (hname : name ∈ run.result.nonTerminals) {chain : List Char} :
    run.result.rules.Derives name chain ↔ run.chainFree.rules.Derives name chain := by
  rw [h.result_eq] at hname ⊢
  obtain ⟨-, hoccurs⟩ := mem_removeUnreachable_nonTerminals.mp hname
  rw [derives_removeUnreachable (h.closed_swept hg) hoccurs,
    derives_removeBarren (h.closed_chainFree hg)]

/-- A name of the result other than its goal stems from the grammar and derives the non-empty
chains that it has derived there. -/
theorem derives_result_iff (h : run.Of g goal root) (hg : g.Closed) {name : String}
    (hname : name ∈ run.result.nonTerminals) (hne : name ≠ root) :
    name ∈ g.nonTerminals ∧ ∀ chain,
      run.result.rules.Derives name chain ↔ g.rules.Derives name chain ∧ chain ≠ [] := by
  have hswept : name ∈ run.chainFree.nonTerminals := by
    rw [h.result_eq, mem_removeUnreachable_nonTerminals, mem_removeBarren_nonTerminals] at hname
    exact hname.1.1
  have hgoal : run.lambdaFree.goal ≠ some name := by
    rw [h.lambdaFree_goal]
    exact fun heq => hne (Option.some.inj heq).symm
  have hconnected : name ∈ run.connected.nonTerminals := by
    rw [h.chainFree_eq, removeChains_nonTerminals, h.lambdaFree_eq] at hswept
    rw [h.lambdaFree_eq] at hgoal
    exact (mem_removeLambda_nonTerminals hswept).resolve_right hgoal
  rw [h.connected_eq] at hconnected
  obtain ⟨hproductive, hoccurs⟩ := mem_removeUnreachable_nonTerminals.mp hconnected
  rw [h.productive_eq] at hproductive
  refine ⟨(mem_removeBarren_nonTerminals.mp hproductive).1, fun chain => ?_⟩
  rw [h.lambdaFree_eq] at hgoal
  -- back through the stages, the last one first
  rw [h.derives_result hg hname, h.chainFree_eq, derives_removeChains (h.closed_lambdaFree hg),
    h.lambdaFree_eq, derives_removeLambda (h.closed_connected hg) h.connected_goal hgoal,
    h.connected_eq, derives_removeUnreachable (h.closed_productive hg) hoccurs,
    h.productive_eq, derives_removeBarren hg]

end Canonization.Of

end FormalLanguages.Grammar
