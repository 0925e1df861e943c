import FormalLanguages.Automaton.Pushdown.Rule

/-!
Deterministic pushdown automata that accept by an accepting state, the end of the input and an
empty stack. A rule on the next letter is preferred over one without input, and a run is given up
when it makes too many moves in a row that read nothing.
-/

namespace FormalLanguages.Automaton

structure Pushdown where
  states : Std.ExtTreeSet String
  alphabet : Std.ExtTreeSet Char
  start : String
  accepting : Std.ExtTreeSet String
  stackAlphabet : Std.ExtTreeSet Char
  startStack : Char
  rules : Std.ExtTreeSet Pushdown.Rule := ∅

namespace Pushdown

/-- The most moves in a row that read nothing. -/
def lambdaLimit : Nat := 10000

/-- Adds a rule; a trigger has one rule only. -/
def addRule (rule : Rule) (m : Pushdown) : Except Fault Pushdown :=
  if m.rules.toList.any (·.trigger = rule.trigger) then .error (.duplicateTransition rule.text)
  else .ok { m with rules := m.rules.insert rule }

/-- A state, the letters left to read and the stack, its top first. -/
structure Configuration where
  state : String
  rest : List Char
  stack : List Char
  deriving DecidableEq, Repr

def Configuration.fields (c : Configuration) : List String :=
  [c.state, orLambda c.rest, orLambda c.stack]

/-- The rules for a state and a stack top that read the next letter or nothing. -/
def candidates (m : Pushdown) (state : String) (next : Option Char) (top : Char) : List Rule :=
  m.rules.toList.filter fun rule =>
    rule.source = state ∧ rule.top = top ∧ (rule.input = none ∨ rule.input = next)

/-- The rules among which there must be one: those that read the next letter, if there are any. -/
def preferred (candidates : List Rule) : List Rule :=
  let reading := candidates.filter (·.input.isSome)
  if reading.isEmpty then candidates else reading

/-- The rule to apply, or why there is none. -/
def select (m : Pushdown) (state : String) (next : Option Char) (top : Char) :
    Except Rejection Rule :=
  match next.filter (· ∉ m.alphabet) with
  | some c => .error (.foreignSymbol c)
  | none =>
    match preferred (m.candidates state next top) with
    | [] => .error (.noRule state next top)
    | [rule] => .ok rule
    | _ => .error .nonDeterministic

/-- A bound on the moves that can follow `moves` moves in a row that read nothing. -/
def movesLeft (limit moves : Nat) (rest : List Char) : Nat :=
  rest.length * (limit + 1) + (limit - moves)

theorem movesLeft_cons_lt (limit moves : Nat) (c : Char) (rest : List Char) :
    movesLeft limit 0 rest < movesLeft limit moves (c :: rest) := by
  simp only [movesLeft, List.length_cons, Nat.succ_mul]
  omega

theorem movesLeft_succ_lt {limit moves : Nat} {rest : List Char} (h : moves < limit) :
    movesLeft limit (moves + 1) rest < movesLeft limit moves rest := by
  simp only [movesLeft]
  omega

/-- Continues a run after `moves` moves in a row that read nothing, of which there may be `limit`,
from a configuration before which those in `passed` lie, last one first. A rule with an input reads
the next letter. -/
def runFrom (m : Pushdown) (limit moves : Nat) (passed : List Configuration) (state : String)
    (rest : List Char) : List Char → Run Configuration
  | [] =>
    { passed := passed.reverse
      final := some ⟨state, rest, []⟩
      verdict := if state ∈ m.accepting ∧ rest = [] then .ok () else .error .notAccepted }
  | top :: stack =>
    let passed := ⟨state, rest, top :: stack⟩ :: passed
    let stuck (rejection : Rejection) : Run Configuration :=
      { passed := passed.reverse, final := none, verdict := .error rejection }
    match m.select state rest.head? top with
    | .error rejection => stuck rejection
    | .ok rule =>
      match rule.input, rest with
      | some _, _ :: left =>
        m.runFrom limit 0 passed rule.target left (rule.replacement.toList ++ stack)
      | _, rest =>
        if moves < limit then
          m.runFrom limit (moves + 1) passed rule.target rest (rule.replacement.toList ++ stack)
        else stuck (.endlessLambda limit)
termination_by movesLeft limit moves rest
decreasing_by
  · exact movesLeft_cons_lt ..
  · exact movesLeft_succ_lt ‹moves < limit›

def recognize (m : Pushdown) (input : String) : Run Configuration :=
  m.runFrom lambdaLimit 0 [] m.start input.toList [m.startStack]

/-- The first state of a list that is not declared is a fault. -/
def checkStates (m : Pushdown) (states : List String) : Except Fault Unit :=
  states.forM fun state => if state ∈ m.states then .ok () else .error (.undeclaredState state)

/-- The first character of a list that is not in an alphabet is a fault. -/
def checkSymbols (alphabet : Std.ExtTreeSet Char) (symbols : List Char) : Except Fault Unit :=
  symbols.forM fun c => if c ∈ alphabet then .ok () else .error (.undeclaredSymbol c)

/-- Checks that a rule uses declared states, letters and stack symbols only. -/
def checkRule (m : Pushdown) (rule : Rule) : Except Fault Unit := do
  m.checkStates [rule.source, rule.target]
  checkSymbols m.alphabet rule.input.toList
  checkSymbols m.stackAlphabet (rule.top :: rule.replacement.toList)

/-- The first rule of a list that has the trigger of the rule before it. -/
def clash? : List Rule → Option Rule
  | first :: second :: rules =>
    if first.trigger = second.trigger then some second else clash? (second :: rules)
  | _ => none

/-- Checks the start, the accepting states, the start of the stack and every rule, in this order,
and then that no trigger has two rules; rules with one trigger are neighbours in the set. -/
def validate (m : Pushdown) : Except Fault Unit := do
  m.checkStates (m.start :: m.accepting.toList)
  checkSymbols m.stackAlphabet [m.startStack]
  m.rules.toList.forM m.checkRule
  match clash? m.rules.toList with
  | some rule => .error (.duplicateTransition rule.text)
  | none => .ok ()

end Pushdown

end FormalLanguages.Automaton
