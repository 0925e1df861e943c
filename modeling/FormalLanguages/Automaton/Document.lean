import FormalLanguages.Automaton.Finite
import FormalLanguages.Automaton.Pushdown.Machine
import FormalLanguages.Json.Value
import FormalLanguages.Located

/-!
Automata as documents. An automaton is read from a JSON text and then validated, and what is wrong
blames the file as a whole.
-/

namespace FormalLanguages.Automaton

/-- The set that an array of texts holds. -/
def stateSet? (value : Json) : Option (Std.ExtTreeSet String) :=
  (value.list? Json.text?).map fun states => .ofList states

/-- The set that an array of characters holds. -/
def symbolSet? (value : Json) : Option (Std.ExtTreeSet Char) :=
  (value.list? Json.char?).map fun symbols => .ofList symbols

namespace Finite

/-- A key of one character. -/
def keyChar? (key : String) : Option Char :=
  match key.toList with
  | [c] => some c
  | _ => none

/-- The transitions from one state; of a repeated letter the last one counts. -/
def rowOfJson? (value : Json) : Option (Std.ExtTreeMap Char String) :=
  (value.members? keyChar? Json.text?).map fun row => .ofList row

/-- The transitions from all states; of a repeated state the last row counts. -/
def transitionsOfJson? (value : Json) :
    Option (Std.ExtTreeMap String (Std.ExtTreeMap Char String)) :=
  (value.members? some rowOfJson?).map fun rows => .ofList rows

def ofJson? (value : Json) : Option Finite := do
  match ← value.record? ["states", "alphabet", "start", "accepting", "transitions"] with
  | [states, alphabet, start, accepting, transitions] =>
    return {
      states := ← stateSet? (← states)
      alphabet := ← symbolSet? (← alphabet)
      start := ← (← start).text?
      accepting := ← stateSet? (← accepting)
      transitions := ← Json.optional ∅ transitionsOfJson? transitions }
  | _ => none

end Finite

namespace Pushdown

/-- The rule that a value holds; the input may be null or absent, the replacement absent. -/
def ruleOfJson? (value : Json) : Option Rule := do
  match ← value.record? ["from", "input", "stackTop", "to", "replacement"] with
  | [source, input, top, target, replacement] =>
    return {
      source := ← (← source).text?
      input := ← Json.optional none (Json.nullable Json.char?) input
      top := ← (← top).char?
      target := ← (← target).text?
      replacement := ← Json.optional "" Json.text? replacement }
  | _ => none

def rulesOfJson? (value : Json) : Option (Std.ExtTreeSet Rule) :=
  (value.list? ruleOfJson?).map fun rules => .ofList rules

def ofJson? (value : Json) : Option Pushdown := do
  match ← value.record? ["states", "alphabet", "start", "accepting", "stackAlphabet", "startStack",
      "rules"] with
  | [states, alphabet, start, accepting, stackAlphabet, startStack, rules] =>
    return {
      states := ← stateSet? (← states)
      alphabet := ← symbolSet? (← alphabet)
      start := ← (← start).text?
      accepting := ← stateSet? (← accepting)
      stackAlphabet := ← symbolSet? (← stackAlphabet)
      startStack := ← (← startStack).char?
      rules := ← Json.optional ∅ rulesOfJson? rules }
  | _ => none

end Pushdown

/-- What is wrong with the file of an automaton. -/
inductive Problem where
  | file (problem : FileProblem)
  /-- The text is no JSON document of an automaton. -/
  | malformed
  | invalid (fault : Fault)
  deriving DecidableEq, Repr

def Problem.message : Problem → String
  | .file problem => "File error: " ++ problem.message
  | .malformed => "Invalid automaton file: not an automaton document"
  | .invalid fault => fault.message

/-- Reads an automaton of some kind from the content of a file and validates it. -/
def load {M : Type} (ofJson? : Json → Option M) (validate : M → Except Fault Unit) (file : String)
    (content : FileContent) : Except (Located Problem) M :=
  match content.text with
  | .error problem => .error { file, error := .file problem }
  | .ok text =>
    match Json.parse text >>= ofJson? with
    | none => .error { file, error := .malformed }
    | some m =>
      match validate m with
      | .error fault => .error { file, error := .invalid fault }
      | .ok () => .ok m

def Finite.load : String → FileContent → Except (Located Problem) Finite :=
  Automaton.load Finite.ofJson? Finite.validate

def Pushdown.load : String → FileContent → Except (Located Problem) Pushdown :=
  Automaton.load Pushdown.ofJson? Pushdown.validate

end FormalLanguages.Automaton
