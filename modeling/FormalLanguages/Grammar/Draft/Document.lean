import FormalLanguages.Grammar.Document
import FormalLanguages.Grammar.Draft.Basic

/-!
Drafts from documents. The alphabets and the goal come first, and the document is given up when one
of them is refused; the rule texts are then tried one after the other on the same draft.
-/

namespace FormalLanguages.Grammar.Document

/-- Sets the alphabets and the goal of a document. -/
def writeHeader (document : Document) : Edit Unit := do
  Draft.setTerminals document.terminals
  Draft.setNonTerminals document.nonTerminals
  if !document.goal.isEmpty then Draft.setGoal document.goal

/-- Tries the rule texts in turn, each on what the one before has left, and lists what is wrong with
those that are refused. -/
def writeRules : List (Nat × String) → Draft → Draft × List (Nat × Error)
  | [], d => (d, [])
  | (number, text) :: rules, d =>
    let (answer, d) := (Draft.addRule text).on d
    let (d, errors) := writeRules rules d
    match answer with
    | .ok () => (d, errors)
    | .error error => (d, (number, error) :: errors)

/-- The draft of a document, or the errors in it with the numbers of their entries. -/
def toDraft (document : Document) : Except (List (Nat × Error)) Draft :=
  match document.writeHeader.on {} with
  | (.error error, _) => .error [(0, error)]
  | (.ok (), d) =>
    match writeRules document.numberedRules d with
    | (d, []) => .ok d
    | (_, errors) => .error errors

end FormalLanguages.Grammar.Document
