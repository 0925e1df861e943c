import FormalLanguages.Automaton.Run
import FormalLanguages.Text.Blank
import Std.Data.ExtTreeMap
import Std.Data.ExtTreeSet

/-!
Deterministic finite automata. A run follows the transitions letter by letter; it is undefined from
a blank state and where a transition is missing.
-/

namespace FormalLanguages.Automaton

structure Finite where
  states : Std.ExtTreeSet String
  alphabet : Std.ExtTreeSet Char
  start : String
  accepting : Std.ExtTreeSet String
  /-- The transitions from each state, by letter. -/
  transitions : Std.ExtTreeMap String (Std.ExtTreeMap Char String) := ∅

namespace Finite

/-- The transitions from a state. -/
def row (m : Finite) (state : String) : Std.ExtTreeMap Char String :=
  (m.transitions[state]?).getD ∅

def next? (m : Finite) (state : String) (c : Char) : Option String :=
  (m.row state)[c]?

/-- Adds a transition; a letter leads from a state to one state only. -/
def addTransition (source : String) (c : Char) (target : String) (m : Finite) :
    Except Fault Finite :=
  match m.next? source c with
  | some _ =>
    .error (.duplicateTransition ("(" ++ source ++ ", " ++ String.singleton c ++ ")"))
  | none =>
    .ok { m with transitions := m.transitions.insert source ((m.row source).insert c target) }

/-- A state and the letters left to read. -/
structure Configuration where
  state : String
  rest : List Char
  deriving DecidableEq, Repr

def Configuration.fields (c : Configuration) : List String :=
  [c.state, orLambda c.rest]

/-- The state after a letter, or why there is none. -/
def step (m : Finite) (state : String) (c : Char) : Except Rejection String :=
  if (Text.trim state.toList).isEmpty then .error .undefinedState
  else
    match m.next? state c with
    | some target => .ok target
    | none => .error (if c ∈ m.alphabet then .noTransition state c else .foreignLetter c)

/-- The run from a state over some letters. -/
def runFrom (m : Finite) (state : String) : List Char → Run Configuration
  | [] =>
    { passed := []
      final := some ⟨state, []⟩
      verdict := if state ∈ m.accepting then .ok () else .error .notAccepted }
  | c :: rest =>
    match m.step state c with
    | .ok target =>
      let run := m.runFrom target rest
      { run with passed := ⟨state, c :: rest⟩ :: run.passed }
    | .error rejection =>
      { passed := [⟨state, c :: rest⟩], final := none, verdict := .error rejection }

def recognize (m : Finite) (input : String) : Run Configuration :=
  m.runFrom m.start input.toList

/-- The first state of a list that is not declared is a fault. -/
def checkStates (m : Finite) (states : List String) : Except Fault Unit :=
  states.forM fun state => if state ∈ m.states then .ok () else .error (.undeclaredState state)

/-- Checks that the start, the accepting states and every transition use declared states and
letters only, in this order. -/
def validate (m : Finite) : Except Fault Unit := do
  m.checkStates (m.start :: m.accepting.toList)
  m.transitions.toList.forM fun (source, row) => do
    m.checkStates [source]
    row.toList.forM fun (c, target) => do
      if c ∉ m.alphabet then throw (.undeclaredSymbol c)
      m.checkStates [target]

end Finite

end FormalLanguages.Automaton
