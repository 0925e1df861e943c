import FormalLanguages.Grammar.Canonical
import FormalLanguages.Grammar.Chomsky
import FormalLanguages.Grammar.Draft.Basic

/-!
The canonical form and the Chomsky form of a draft. The passes work on its rows; each of them that
takes bodies away ends with the rows that this leaves empty.
-/

namespace FormalLanguages

namespace RuleBook

/-- Every row with the bodies that stand for its own ones once nothing derives the empty chain. -/
def withoutNullable (nullable : Std.ExtTreeSet String) (book : RuleBook) : RuleBook :=
  book.revise fun head bodies =>
    .ofList ((bodies.toList.flatMap fun body => Grammar.withoutNullable nullable ⟨head, body⟩).map
      Rule.body)

/-- What some names get from others: for each of the names, the rows of all names but itself that
its chain bodies lead to. -/
def inherited (names : Std.ExtTreeSet String) (chains : RuleTable) (others : RuleBook) :
    List (String × List Body) :=
  names.toList.flatMap fun head =>
    ((chains.reachable head).erase head).toList.filterMap fun name =>
      others[name]?.map fun bodies => (head, bodies.toList)

/-- Every row without its chain bodies and with what the name inherits through them. -/
def withoutChains (names : Std.ExtTreeSet String) (book : RuleBook) : RuleBook :=
  let chains := book.rules.keep (·.body.isChain)
  let others : RuleBook := book.map fun _ bodies => bodies.filter (!·.isChain)
  let filled := (inherited names chains others).foldl (fun book row => book.addAll row.1 row.2) others
  filled.filter fun _ bodies => !bodies.isEmpty

end RuleBook

namespace Grammar.Draft

/-- Drops the rows of undeclared heads and the bodies with a symbol that fails the test. -/
def retainRules (test : Symbol → Bool) (d : Draft) : Draft :=
  { d with book := d.book.retain d.nonTerminals test }

/-- Drops the names that derive no chain, with the rules that use them. -/
def removeBarren (d : Draft) : Draft :=
  let generating := d.book.rules.generating
  { d with nonTerminals := .ofList (d.nonTerminals.toList.filter (· ∈ generating)) }.retainRules
    fun
      | .terminal _ => true
      | .nonTerminal name => name ∈ generating

/-- Drops the symbols that occur in nothing the goal derives, with the rules that use them. -/
def removeUnreachable (goal : String) (d : Draft) : Draft :=
  let letters := d.book.rules.reachableLetters goal
  let names := d.book.rules.reachable goal
  { d with
    terminals := .ofList (d.terminals.toList.filter (· ∈ letters))
    nonTerminals := .ofList (d.nonTerminals.toList.filter (· ∈ names)) }.retainRules
    fun
      | .terminal c => c ∈ letters
      | .nonTerminal name => name ∈ names

/-- Takes the empty bodies away. A goal that derives the empty chain gets it back: as a body of its
own if no body refers to it, through a fresh goal with a new row otherwise. -/
def removeLambda (goal : String) (d : Draft) : Draft :=
  let nullable := d.book.rules.nullable
  let book := d.book.withoutNullable nullable
  if goal ∉ nullable then { d with book }
  else if book.rules.toList.any fun rule => .nonTerminal goal ∈ rule.body then
    let fresh := ((NameSupply.mk d.nonTerminals []).fresh (goal ++ "'")).1
    { d with
      nonTerminals := d.nonTerminals.insert fresh
      goal := some fresh
      book := book.insert fresh (.ofList [[], [Symbol.nonTerminal goal]]) }
  else { d with book := book.add ⟨goal, []⟩ }

/-- Replaces the chain bodies of a declared name by the other bodies of the names that chain bodies
lead to. -/
def removeChains (d : Draft) : Draft :=
  { d with book := d.book.withoutChains d.nonTerminals }

/-- The goal that the draft has now. -/
def currentGoal : Edit String := do
  match (← get).goal with
  | some goal => return goal
  | none => throw .missingGoal

/-- Brings the draft to canonical form, one pass after the other. -/
def toCanonical : Edit Unit := do
  let goal ← currentGoal
  if goal ∉ (← get).book.rules.generating then throw .emptyLanguage
  modify removeBarren
  modify (removeUnreachable goal)
  modify (removeLambda goal)
  modify removeChains
  -- the goal may have moved to a fresh name
  let goal ← currentGoal
  modify removeBarren
  modify (removeUnreachable goal)

/-- Brings a canonical draft to Chomsky form. The rules are put into new rows one at a time. -/
def toChomsky : Edit Unit :=
  modify fun d =>
    let g := d.grammar.toChomsky
    { d with nonTerminals := g.nonTerminals, book := .ofRules g.rules }

end Grammar.Draft

end FormalLanguages
