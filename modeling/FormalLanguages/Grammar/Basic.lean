import FormalLanguages.Symbol
import FormalLanguages.Text.Split

/-!
Grammars: two alphabets, an optional goal symbol and a rule table. An alphabet is read from a text
as a whole or not at all, and reading one drops every rule.
-/

namespace FormalLanguages

structure Grammar where
  terminals : Std.ExtTreeSet Char := ∅
  nonTerminals : Std.ExtTreeSet String := ∅
  goal : Option String := none
  rules : RuleTable := ∅
  deriving DecidableEq

namespace Grammar

/-- Why an operation on a grammar is refused. -/
inductive Error where
  /-- The text is not a head, an arrow and a body over the declared symbols. -/
  | malformedRule (text : String)
  /-- A wrapper in a body is broken. -/
  | malformedLexeme (fault : Lexeme.Fault)
  /-- The goal is no declared non-terminal. -/
  | invalidGoal (name : String)
  /-- An alphabet lists a symbol twice. -/
  | duplicateSymbol (symbol : String)
  /-- A symbol is to be a terminal and a non-terminal at once. -/
  | alphabetCollision (symbol : String)
  /-- A symbol has a character that is reserved for rule texts. -/
  | reservedSymbol (symbol : String)
  | missingGoal
  /-- The goal derives no chain. -/
  | emptyLanguage
  deriving DecidableEq, Repr

def Error.message : Error → String
  | .malformedRule text => "Rule format violated: `" ++ text ++ "`"
  | .malformedLexeme fault => "Malformed lexeme: " ++ fault.message
  | .invalidGoal name => "`" ++ name ++ "` cannot be the goal symbol"
  | .duplicateSymbol symbol => "Symbol `" ++ symbol ++ "` is listed more than once"
  | .alphabetCollision symbol => "Symbol `" ++ symbol ++ "` is both a terminal and a non-terminal"
  | .reservedSymbol symbol => "Symbol `" ++ symbol ++ "` uses a reserved character"
  | .missingGoal => "No goal symbol is set"
  | .emptyLanguage => "The goal symbol derives no chains"

/-- The grammar without symbols and rules. -/
def empty : Grammar := {}

/-- Adds the listed characters to an alphabet of terminals, up to the first offence. -/
def readTerminals (nonTerminals : Std.ExtTreeSet String) :
    Std.ExtTreeSet Char → List Char → Except Error (Std.ExtTreeSet Char)
  | known, [] => .ok known
  | known, c :: text =>
    if isReserved c then .error (.reservedSymbol (String.singleton c))
    else if String.singleton c ∈ nonTerminals then .error (.alphabetCollision (String.singleton c))
    else if c ∈ known then .error (.duplicateSymbol (String.singleton c))
    else readTerminals nonTerminals (known.insert c) text

/-- Replaces the terminals by the characters of a text, blanks at its ends aside. -/
def setTerminals (text : String) (g : Grammar) : Except Error Grammar := do
  let terminals ← readTerminals g.nonTerminals ∅ (Text.trim text.toList)
  return { g with terminals, rules := ∅ }

/-- The names listed in a text, without the blanks around them. -/
def listedNames (text : String) : List (List Char) :=
  ((Text.fields isNameSeparator text.toList).map Text.trim).filter (!·.isEmpty)

/-- A name of one character that is a terminal. -/
def isTerminalName (terminals : Std.ExtTreeSet Char) : List Char → Bool
  | [c] => c ∈ terminals
  | _ => false

/-- Adds the listed names to an alphabet of non-terminals, up to the first offence. -/
def readNonTerminals (terminals : Std.ExtTreeSet Char) :
    Std.ExtTreeSet String → List (List Char) → Except Error (Std.ExtTreeSet String)
  | known, [] => .ok known
  | known, letters :: names =>
    let name := String.ofList letters
    if letters.any isReserved then .error (.reservedSymbol name)
    else if isTerminalName terminals letters then .error (.alphabetCollision name)
    else if name ∈ known then .error (.duplicateSymbol name)
    else readNonTerminals terminals (known.insert name) names

/-- Replaces the non-terminals by the names listed in a text and forgets a goal that is no longer
declared. -/
def setNonTerminals (text : String) (g : Grammar) : Except Error Grammar := do
  let nonTerminals ← readNonTerminals g.terminals ∅ (listedNames text)
  return { g with nonTerminals, goal := g.goal.filter (· ∈ nonTerminals), rules := ∅ }

def setGoal (name : String) (g : Grammar) : Except Error Grammar :=
  if name ∈ g.nonTerminals then .ok { g with goal := some name } else .error (.invalidGoal name)

def requireGoal (g : Grammar) : Except Error String :=
  match g.goal with
  | some goal => .ok goal
  | none => .error .missingGoal

/-- Drops the rules with an undeclared head or with a body symbol that fails the test. -/
def retainRules (test : Symbol → Bool) (g : Grammar) : Grammar :=
  { g with rules := g.rules.keep fun rule => rule.head ∈ g.nonTerminals ∧ rule.body.all test }

end Grammar

end FormalLanguages
