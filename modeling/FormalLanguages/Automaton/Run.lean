import FormalLanguages.Lexeme

/-!
Runs of automata: the configurations that a run goes through and its verdict, with the lines that
describe them. A configuration that the run does not come to rest in is marked.
-/

namespace FormalLanguages.Automaton

/-- Why a chain is not accepted. -/
inductive Rejection where
  /-- The state is blank while symbols are left. -/
  | undefinedState
  | foreignLetter (c : Char)
  | noTransition (state : String) (c : Char)
  | noRule (state : String) (next : Option Char) (top : Char)
  | endlessLambda (limit : Nat)
  /-- The next symbol is not in the alphabet. -/
  | foreignSymbol (c : Char)
  | nonDeterministic
  | notAccepted
  deriving DecidableEq, Repr

/-- Whether a rejection leaves the behaviour undefined, and the reason for it. -/
def Rejection.undefinedReason? : Rejection → Option String
  | .undefinedState => some "the current state is undefined"
  | .foreignLetter c => some ("`" ++ String.singleton c ++ "` is not in the alphabet")
  | .noTransition state c =>
    some ("no transition from " ++ state ++ " on `" ++ String.singleton c ++ "`")
  | .noRule state next top =>
    some ("no rule for (" ++ state ++ ", " ++ String.singleton (next.getD lambda) ++ ", " ++
      String.singleton top ++ ")")
  | .endlessLambda limit => some ("more than " ++ toString limit ++ " λ-moves in a row")
  | _ => none

def Rejection.message (rejection : Rejection) : String :=
  match rejection.undefinedReason? with
  | some reason => "Behaviour is undefined: " ++ reason
  | none =>
    match rejection with
    | .foreignSymbol c => "The chain contains the foreign symbol `" ++ String.singleton c ++ "`"
    | .nonDeterministic => "Behaviour is non-deterministic"
    | _ => "The automaton did not end in an accepting state"

/-- The verdict on a chain: accepted, or why not. -/
abbrev Verdict := Except Rejection Unit

/-- The configurations that a run moved on from or got stuck in, the one it came to rest in, and
the verdict. -/
structure Run (Configuration : Type) where
  passed : List Configuration
  final : Option Configuration
  verdict : Verdict

/-- The sign after a configuration that the run does not rest in. -/
def stepMarker : Char := '┠'

/-- A sequence of symbols, with `λ` for none. -/
def orLambda (symbols : List Char) : String :=
  if symbols.isEmpty then String.singleton lambda else String.ofList symbols

/-- The fields of a configuration between parentheses. -/
def configurationLine (fields : List String) : String :=
  "(" ++ ", ".intercalate fields ++ ")"

/-- The lines of a run, given the fields of a configuration. -/
def Run.lines {Configuration : Type} (fields : Configuration → List String)
    (run : Run Configuration) : List String :=
  run.passed.map (fun c => configurationLine (fields c) ++ " " ++ String.singleton stepMarker) ++
    run.final.toList.map fun c => configurationLine (fields c)

theorem Run.lines_eq {Configuration : Type} (fields : Configuration → List String)
    (run : Run Configuration) :
    run.lines fields = run.passed.map (fun c => configurationLine (fields c) ++ " ┠") ++
      run.final.toList.map fun c => configurationLine (fields c) := by
  have hmarker : " " ++ String.singleton stepMarker = " ┠" := rfl
  simp only [Run.lines, String.append_assoc, hmarker]

/-- What is wrong with the description of an automaton. -/
inductive Fault where
  | undeclaredState (state : String)
  | undeclaredSymbol (c : Char)
  /-- A transition that clashes with another one, as it is displayed. -/
  | duplicateTransition (transition : String)
  deriving DecidableEq, Repr

def Fault.message : Fault → String
  | .undeclaredState state => "State `" ++ state ++ "` is not declared"
  | .undeclaredSymbol c => "Symbol `" ++ String.singleton c ++ "` is not declared"
  | .duplicateTransition transition => "Transition " ++ transition ++ " is already defined"

end FormalLanguages.Automaton
