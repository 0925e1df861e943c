import FormalLanguages.Grammar.Basic
import FormalLanguages.Proofs.Answers
import FormalLanguages.Proofs.Interpretation

/-!
Closed grammars, whose goal and rules use declared symbols only, and the languages of grammars and
of their names.
-/

namespace FormalLanguages

namespace Grammar

/-- The symbol belongs to the alphabet of its kind. -/
def Declares (g : Grammar) : Symbol → Prop
  | .terminal c => c ∈ g.terminals
  | .nonTerminal name => name ∈ g.nonTerminals

/-- The goal and the rules use declared symbols only. -/
structure Closed (g : Grammar) : Prop where
  goal : ∀ name, g.goal = some name → name ∈ g.nonTerminals
  head : ∀ rule ∈ g.rules, rule.head ∈ g.nonTerminals
  body : ∀ rule ∈ g.rules, ∀ symbol ∈ rule.body, g.Declares symbol

/-- The chains that the goal derives; none without a goal. -/
def Generates (g : Grammar) (chain : List Char) : Prop :=
  ∃ goal, g.goal = some goal ∧ g.rules.Derives goal chain

theorem generates_iff {g : Grammar} {goal : String} (hgoal : g.goal = some goal)
    {chain : List Char} : g.Generates chain ↔ g.rules.Derives goal chain := by
  simp [Generates, hgoal]

theorem closed_empty : Grammar.empty.Closed where
  goal := by simp [Grammar.empty]
  head := by simp [Grammar.empty]
  body := by simp [Grammar.empty]

theorem requireGoal_eq_ok {g : Grammar} {goal : String} :
    g.requireGoal = .ok goal ↔ g.goal = some goal := by
  cases h : g.goal <;> simp [requireGoal, h]

end Grammar

end FormalLanguages
