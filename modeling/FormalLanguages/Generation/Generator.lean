import FormalLanguages.Generation.Search
import FormalLanguages.Grammar.Basic

/-!
Generators: a rule table, a goal and settings, with what the last search has come to. A search that
is stopped keeps no chains.
-/

namespace FormalLanguages.Generation

/-- What the last search has come to. -/
inductive Progress where
  | idle
  | completed (chains : List String)
  | canceled
  deriving DecidableEq, Repr

def Progress.chains : Progress → List String
  | .completed chains => chains
  | _ => []

/-- Searches the chains that the goal derives. With a patience of `n` the search is stopped before
it tries body number `n + 1`. -/
def generate (rules : RuleTable) (goal : String) (settings : Settings)
    (patience : Option Nat) : Progress :=
  let rows := Rows.ofRules settings.order rules
  match search rows settings goal (rows.bodies goal) { patience } with
  | some harvest => .completed harvest.chains
  | none => .canceled

structure Generator where
  rules : RuleTable
  goal : String
  settings : Settings
  progress : Progress := .idle

namespace Generator

def ofGrammar (g : Grammar) (settings : Settings) : Except Error Generator :=
  match g.goal with
  | some goal => .ok { rules := g.rules, goal, settings }
  | none => .error .missingGoal

/-- Searches anew; what an earlier search found is dropped. -/
def run (patience : Option Nat) (generator : Generator) : Generator :=
  { generator with
    progress := generate generator.rules generator.goal generator.settings patience }

end Generator

end FormalLanguages.Generation
