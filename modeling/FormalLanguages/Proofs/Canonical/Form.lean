import FormalLanguages.Proofs.History

/-!
The shape of the canonical form. Chain bodies are gone after the fourth stage, and only a goal that
no body refers to has the empty body; both stay so, for the last sweep only drops rules. What it
leaves has no useless symbol.
-/

namespace FormalLanguages.Grammar

open RuleTable Relation

/-- The canonical form of a grammar with this goal. -/
structure IsCanonical (g : Grammar) (goal : String) : Prop where
  goal_eq : g.goal = some goal
  /-- The goal, all heads and all symbols of bodies are declared. -/
  closed : g.Closed
  /-- No body is a single non-terminal. -/
  no_chain : ∀ rule ∈ g.rules, ∀ name, rule.body ≠ [.nonTerminal name]
  /-- The empty body is a body of the goal, and then no body refers to the goal. -/
  nil_body : ∀ head, ⟨head, []⟩ ∈ g.rules →
    head = goal ∧ ∀ rule ∈ g.rules, .nonTerminal goal ∉ rule.body
  has_body : ∀ name ∈ g.nonTerminals, ∃ body, ⟨name, body⟩ ∈ g.rules
  occurs : ∀ name ∈ g.nonTerminals, g.rules.Occurs goal (.nonTerminal name)
  derives : ∀ name ∈ g.nonTerminals, ∃ chain, g.rules.Derives name chain
  letter_occurs : ∀ c ∈ g.terminals, ∃ head body,
    g.rules.Occurs goal (.nonTerminal head) ∧ ⟨head, body⟩ ∈ g.rules ∧ .terminal c ∈ body

variable {g g' : Grammar}

namespace Canonization.Of

variable {run : Canonization} {goal root : String}

theorem no_chain_chainFree (h : run.Of g goal root) (hg : g.Closed) {rule : Rule}
    (hrule : rule ∈ run.chainFree.rules) (name : String) : rule.body ≠ [.nonTerminal name] := by
  rw [h.chainFree_eq] at hrule
  obtain ⟨hother, -⟩ := (mem_removeChains_rules (h.closed_lambdaFree hg)).mp hrule
  intro hbody
  rw [hbody] at hother
  exact absurd hother (by simp [Body.isChain])

/-- A head cannot take the empty body over through a chain body, as none refers to the goal. -/
theorem nil_mem_chainFree (h : run.Of g goal root) (hg : g.Closed) {head : String}
    (hrule : ⟨head, []⟩ ∈ run.chainFree.rules) :
    head = root ∧ ∀ rule ∈ run.chainFree.rules, .nonTerminal root ∉ rule.body := by
  have hclosed := h.closed_lambdaFree hg
  rw [h.chainFree_eq] at hrule ⊢
  obtain ⟨-, name, hpath, hnil⟩ := (mem_removeChains_rules hclosed).mp hrule
  have hroot := h.lambdaFree_goal
  rw [h.lambdaFree_eq] at hnil hroot
  obtain ⟨hname, hfree⟩ := nil_mem_removeLambda (h.closed_connected hg) h.connected_goal hnil
  obtain rfl : name = root := Option.some.inj (hname.symm.trans hroot)
  rw [← h.lambdaFree_eq] at hfree
  refine ⟨?_, fun rule hrule hmem => ?_⟩
  · cases hpath with
    | refl => rfl
    | tail _ hstep => exact absurd (List.mem_singleton_self _) (hfree _ hstep)
  · obtain ⟨-, other, -, hbody⟩ := (mem_removeChains_rules hclosed).mp hrule
    exact hfree _ hbody hmem

theorem isCanonical_result (h : run.Of g goal root) (hg : g.Closed) :
    run.result.IsCanonical root := by
  have hclosed := h.closed_result hg
  have hswept := h.closed_swept hg
  have hderives {name : String} (hname : name ∈ run.result.nonTerminals) :
      ∃ chain, run.result.rules.Derives name chain := by
    have hold := hname
    rw [h.result_eq, mem_removeUnreachable_nonTerminals, mem_removeBarren_nonTerminals] at hold
    obtain ⟨⟨-, chain, hchain⟩, -⟩ := hold
    exact ⟨chain, (h.derives_result hg hname).mpr hchain⟩
  refine ⟨h.result_goal, hclosed, ?_, ?_, ?_, ?_, fun name hname => hderives hname, ?_⟩
  · intro rule hrule
    exact h.no_chain_chainFree hg (h.mem_chainFree_of_mem_result hg hrule)
  · intro head hrule
    obtain ⟨hhead, hfree⟩ := h.nil_mem_chainFree hg (h.mem_chainFree_of_mem_result hg hrule)
    exact ⟨hhead, fun rule hrule => hfree rule (h.mem_chainFree_of_mem_result hg hrule)⟩
  · intro name hname
    obtain ⟨chain, body, hrule, -⟩ := hderives hname
    exact ⟨body, hrule⟩
  · intro name hname
    rw [h.result_eq] at hname ⊢
    exact (occurs_removeUnreachable hswept).mpr (mem_removeUnreachable_nonTerminals.mp hname).2
  · intro c hc
    rw [h.result_eq] at hc ⊢
    exact occurs_terminal_iff.mp
      ((occurs_removeUnreachable hswept).mpr (mem_removeUnreachable_terminals.mp hc).2)

end Canonization.Of

theorem Closed.isCanonical_toCanonical (hg : g.Closed) (h : g.toCanonical = .ok g') :
    ∃ goal, g'.IsCanonical goal := by
  obtain ⟨run, goal, root, -, rfl, hof⟩ := toCanonical_eq_ok h
  exact ⟨root, hof.isCanonical_result hg⟩

/-- The canonical form of a reachable grammar is canonical. -/
theorem isCanonical_of_toCanonical (hg : g.Reachable) (h : g.toCanonical = .ok g') :
    ∃ goal, g'.IsCanonical goal :=
  hg.closed.isCanonical_toCanonical h

theorem isCanonical_nullableGoal :
    nullableGoal.Reachable ∧
      ∃ g, nullableGoal.toCanonical = .ok g ∧ ∃ goal, g.IsCanonical goal := by
  obtain ⟨g, hg⟩ := exists_toCanonical_nullableGoal
  exact ⟨reachable_nullableGoal, g, hg, isCanonical_of_toCanonical reachable_nullableGoal hg⟩

end FormalLanguages.Grammar
