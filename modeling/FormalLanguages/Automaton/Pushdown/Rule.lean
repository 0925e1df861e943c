import FormalLanguages.Automaton.Run
import Std.Data.ExtTreeSet

/-!
Rules of pushdown automata. A rule is triggered by a state, the next letter or none, and the top of
the stack, and puts a replacement in the place of the top. Stack actions are a reading of the
replacement, which a rule made from an action gives back.
-/

namespace FormalLanguages.Automaton.Pushdown

/-- When a rule applies; without an input it reads nothing. -/
structure Trigger where
  source : String
  input : Option Char
  top : Char
  deriving DecidableEq, Repr

structure Rule where
  source : String
  input : Option Char
  top : Char
  target : String
  /-- What takes the place of the top, first character on top. -/
  replacement : String
  deriving DecidableEq, Repr

/-- What a rule does to the stack. -/
inductive Action where
  | pop
  | keep
  /-- Puts symbols on the top, the first one uppermost. -/
  | push (symbols : String)
  /-- Puts symbols in the place of the top; `λ` among them stands for nothing. -/
  | replace (symbols : String)
  deriving DecidableEq, Repr

def Action.replacement (top : Char) : Action → String
  | .pop => ""
  | .keep => String.singleton top
  | .push symbols => symbols ++ String.singleton top
  | .replace symbols => String.ofList (symbols.toList.filter (· ≠ lambda))

def Trigger.rule (trigger : Trigger) (target : String) (action : Action) : Rule :=
  { source := trigger.source
    input := trigger.input
    top := trigger.top
    target
    replacement := action.replacement trigger.top }

namespace Rule

def trigger (rule : Rule) : Trigger :=
  { source := rule.source, input := rule.input, top := rule.top }

/-- The action that the replacement shows: a replacement that ends in the top keeps it. -/
def action (rule : Rule) : Action :=
  let symbols := rule.replacement.toList
  if symbols.isEmpty then .pop
  else if symbols.getLast? = some rule.top then
    if symbols.length = 1 then .keep else .push (String.ofList symbols.dropLast)
  else .replace rule.replacement

/-- The rule as an equation on the transition function. -/
def text (rule : Rule) : String :=
  "δ(" ++ rule.source ++ "," ++ String.singleton (rule.input.getD lambda) ++ "," ++
    String.singleton rule.top ++ ")=\x7b(" ++ rule.target ++ "," ++
    orLambda rule.replacement.toList ++ ")\x7d"

/-- The fields by which rules are ordered, the first one most significant; no input comes before
every letter. -/
def compareFields : Rule → Rule → Ordering :=
  compareLex (compareOn source) <| compareLex (compareOn input) <| compareLex (compareOn top) <|
    compareLex (compareOn target) (compareOn replacement)

instance : Ord Rule where
  compare := compareFields

instance : Std.TransOrd Rule :=
  inferInstanceAs <| Std.TransCmp <| compareLex (compareOn source) <|
    compareLex (compareOn input) <| compareLex (compareOn top) <|
      compareLex (compareOn target) (compareOn replacement)

instance : Std.LawfulEqOrd Rule where
  compare_self := Std.ReflOrd.compare_self
  eq_of_compare {a b} h := by
    obtain ⟨hsource, h⟩ := Ordering.then_eq_eq.mp h
    obtain ⟨hinput, h⟩ := Ordering.then_eq_eq.mp h
    obtain ⟨htop, h⟩ := Ordering.then_eq_eq.mp h
    obtain ⟨htarget, hreplacement⟩ := Ordering.then_eq_eq.mp h
    have hsource : a.source = b.source := Std.LawfulEqOrd.eq_of_compare hsource
    have hinput : a.input = b.input := Std.LawfulEqOrd.eq_of_compare hinput
    have htop : a.top = b.top := Std.LawfulEqOrd.eq_of_compare htop
    have htarget : a.target = b.target := Std.LawfulEqOrd.eq_of_compare htarget
    have hreplacement : a.replacement = b.replacement :=
      Std.LawfulEqOrd.eq_of_compare hreplacement
    cases a
    cases b
    simp_all

end Rule

end FormalLanguages.Automaton.Pushdown
