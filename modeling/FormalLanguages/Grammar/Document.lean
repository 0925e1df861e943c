import FormalLanguages.Grammar.RuleText
import FormalLanguages.Json.Value
import FormalLanguages.Located

/-!
Grammars as documents. A document has the alphabets and the goal as texts and a list of entries,
each with a head and the bodies of some of its rules between bars, where a placeholder stands for
the empty body. Reading a document reports every broken alternative, with the number of its entry.
-/

namespace FormalLanguages.Grammar

/-- A head and some of its bodies. -/
structure Entry where
  head : String
  body : String
  deriving DecidableEq, Repr

namespace Entry

/-- What stands for `λ` in a document. -/
def lambdaPlaceholder : String := "<lambda>"

def bodyText (body : Body) : String :=
  if body.isEmpty then lambdaPlaceholder else body.text

/-- The entry of a head with some bodies. -/
def ofBodies (head : String) (bodies : List Body) : Entry where
  head
  body := (String.singleton alternativeBar).intercalate (bodies.map bodyText)

/-- The rule texts of an entry. -/
def ruleTexts (entry : Entry) : List String :=
  (Text.fields (· == alternativeBar) entry.body.toList).map fun alternative =>
    entry.head ++ String.singleton arrow ++
      String.ofList (Text.replaceAll lambdaPlaceholder.toList [lambda] alternative)

end Entry

structure Document where
  terminals : String
  nonTerminals : String
  goal : String := ""
  entries : List Entry := []
  deriving DecidableEq, Repr

namespace Document

def ofGrammar (g : Grammar) : Document where
  terminals := String.ofList g.terminals.toList
  nonTerminals := ";".intercalate g.nonTerminals.toList
  goal := g.goal.getD ""
  entries := g.rules.rows.map fun (head, bodies) => .ofBodies head bodies

/-- The rule texts of all entries, each with the number of its entry. -/
def numberedRules (document : Document) : List (Nat × String) :=
  (document.entries.zipIdx 1).flatMap fun (entry, number) =>
    entry.ruleTexts.map fun text => (number, text)

/-- Adds the rules that are sound and lists what is wrong with the others. -/
def addRules : List (Nat × String) → Grammar → Grammar × List (Nat × Error)
  | [], g => (g, [])
  | (number, text) :: rules, g =>
    match g.addRule text with
    | .ok g => addRules rules g
    | .error error =>
      let (g, errors) := addRules rules g
      (g, (number, error) :: errors)

/-- The alphabets and the goal of a document. -/
def header (document : Document) : Except Error Grammar := do
  let g ← Grammar.empty.setTerminals document.terminals
  let g ← g.setNonTerminals document.nonTerminals
  if document.goal.isEmpty then return g else g.setGoal document.goal

/-- The grammar of a document, or the errors in it with the numbers of their entries. -/
def toGrammar (document : Document) : Except (List (Nat × Error)) Grammar :=
  match document.header with
  | .error error => .error [(0, error)]
  | .ok g =>
    match addRules document.numberedRules g with
    | (g, []) => .ok g
    | (_, errors) => .error errors

/-- The entry that a value holds. -/
def entryOfJson? (value : Json) : Option Entry := do
  match ← value.record? ["head", "body"] with
  | [head, body] => return { head := ← (← head).text?, body := ← (← body).text? }
  | _ => none

/-- The document that a value holds; the goal and the rules may be absent. -/
def ofJson? (value : Json) : Option Document := do
  match ← value.record? ["terminals", "nonTerminals", "goal", "rules"] with
  | [terminals, nonTerminals, goal, rules] =>
    return {
      terminals := ← (← terminals).text?
      nonTerminals := ← (← nonTerminals).text?
      goal := ← Json.optional "" Json.text? goal
      entries := ← Json.optional [] (Json.list? entryOfJson?) rules }
  | _ => none

/-- A named text of a document. -/
def fieldText (name value : String) : String :=
  Json.quote name ++ ": " ++ Json.quote value

def entryText (entry : Entry) : String :=
  "    \x7b\n      " ++ fieldText "head" entry.head ++ ",\n      " ++
    fieldText "body" entry.body ++ "\n    \x7d"

def entriesText (entries : List Entry) : String :=
  if entries.isEmpty then "[]" else "[\n" ++ ",\n".intercalate (entries.map entryText) ++ "\n  ]"

/-- The document as JSON, indented by two spaces. -/
def text (document : Document) : String :=
  "\x7b\n  " ++ fieldText "terminals" document.terminals ++
    ",\n  " ++ fieldText "nonTerminals" document.nonTerminals ++
    ",\n  " ++ fieldText "goal" document.goal ++
    ",\n  " ++ Json.quote "rules" ++ ": " ++ entriesText document.entries ++ "\n\x7d"

/-- What is wrong with the file of a grammar. -/
inductive Problem where
  | file (problem : FileProblem)
  /-- The text is no JSON document of a grammar. -/
  | malformed
  | invalid (error : Error)
  deriving DecidableEq, Repr

def Problem.message : Problem → String
  | .file problem => "File error: " ++ problem.message
  | .malformed => "Invalid grammar file: not a grammar document"
  | .invalid error => error.message

/-- Reads a grammar from the text of a document, blaming the given file. -/
def parse (file text : String) : Except (List (Located Problem)) Grammar :=
  match Json.parse text >>= ofJson? with
  | none => .error [{ file, error := .malformed }]
  | some document =>
    document.toGrammar.mapError fun errors =>
      errors.map fun (entry, error) => { file, entry, error := .invalid error }

/-- Reads a grammar from the content of a file. -/
def load (file : String) (content : FileContent) : Except (List (Located Problem)) Grammar :=
  match content.text with
  | .error problem => .error [{ file, error := .file problem }]
  | .ok text => parse file text

end Document

end FormalLanguages.Grammar
