import FormalLanguages.Grammar.RuleText
import FormalLanguages.InPlace
import FormalLanguages.RuleBook

/-!
Drafts: grammars that are edited in place, with their rules under their heads. An edit that is refused
has an answer all the same, and the draft is whatever the edit has made of it up to there. A draft
holds the grammar that has its alphabets, its goal and the rules in its rows.
-/

namespace FormalLanguages.Grammar

structure Draft where
  terminals : Std.ExtTreeSet Char := ∅
  nonTerminals : Std.ExtTreeSet String := ∅
  goal : Option String := none
  book : RuleBook := ∅
  deriving DecidableEq

abbrev Edit := InPlace Error Draft

namespace Draft

/-- The grammar that the draft holds. -/
def grammar (d : Draft) : Grammar where
  terminals := d.terminals
  nonTerminals := d.nonTerminals
  goal := d.goal
  rules := d.book.rules

/-- The draft that a grammar is written into. -/
def ofGrammar (g : Grammar) : Draft where
  terminals := g.terminals
  nonTerminals := g.nonTerminals
  goal := g.goal
  book := .ofRules g.rules

/-- What a rule text is read over: the alphabets alone. -/
def alphabets (d : Draft) : Grammar where
  terminals := d.terminals
  nonTerminals := d.nonTerminals

@[simp] theorem grammar_terminals (d : Draft) : d.grammar.terminals = d.terminals := rfl

@[simp] theorem grammar_nonTerminals (d : Draft) : d.grammar.nonTerminals = d.nonTerminals := rfl

@[simp] theorem grammar_goal (d : Draft) : d.grammar.goal = d.goal := rfl

@[simp] theorem grammar_rules (d : Draft) : d.grammar.rules = d.book.rules := rfl

@[simp] theorem grammar_ofGrammar (g : Grammar) : (ofGrammar g).grammar = g := by
  simp only [grammar, ofGrammar, RuleBook.rules_ofRules]

/-! ### Edits -/

/-- Replaces the terminals by the characters of a text and drops every row. -/
def setTerminals (text : String) : Edit Unit := do
  let nonTerminals := (← get).nonTerminals
  let terminals ← MonadExcept.ofExcept
    (readTerminals nonTerminals ∅ (Text.trim text.toList))
  modify fun d => { d with terminals }
  modify fun d => { d with book := ∅ }

/-- Replaces the non-terminals by the names listed in a text, forgets a goal that is no longer
declared and drops every row. -/
def setNonTerminals (text : String) : Edit Unit := do
  let terminals := (← get).terminals
  let nonTerminals ← MonadExcept.ofExcept (readNonTerminals terminals ∅ (listedNames text))
  modify fun d => { d with goal := d.goal.filter (· ∈ nonTerminals) }
  modify fun d => { d with nonTerminals }
  modify fun d => { d with book := ∅ }

def setGoal (name : String) : Edit Unit := do
  if name ∉ (← get).nonTerminals then throw (.invalidGoal name)
  modify fun d => { d with goal := some name }

def parseBody (text : String) (d : Draft) : Except Error Body :=
  d.alphabets.parseBody text

def addRule (text : String) : Edit Unit := do
  let rule ← MonadExcept.ofExcept ((← get).alphabets.parseRule text)
  modify fun d => { d with book := d.book.add rule }

/-- Takes a rule away, and answers whether it was there. -/
def removeRule (rule : Rule) : Edit Bool :=
  modifyGet fun d =>
    let (found, book) := d.book.remove rule
    (found, { d with book })

/-! ### What an edit does -/

theorem on_setTerminals (text : String) (d : Draft) : (setTerminals text).on d =
    match readTerminals d.nonTerminals ∅ (Text.trim text.toList) with
    | .ok terminals => (.ok (), { d with terminals, book := ∅ })
    | .error error => (.error error, d) := by
  simp only [setTerminals, InPlace.on_bind, InPlace.on_get, InPlace.on_ofExcept, InPlace.on_modify]
  cases readTerminals d.nonTerminals ∅ (Text.trim text.toList) <;> rfl

theorem on_setNonTerminals (text : String) (d : Draft) : (setNonTerminals text).on d =
    match readNonTerminals d.terminals ∅ (listedNames text) with
    | .ok nonTerminals =>
      (.ok (), { d with nonTerminals, goal := d.goal.filter (· ∈ nonTerminals), book := ∅ })
    | .error error => (.error error, d) := by
  simp only [setNonTerminals, InPlace.on_bind, InPlace.on_get, InPlace.on_ofExcept,
    InPlace.on_modify]
  cases readNonTerminals d.terminals ∅ (listedNames text) <;> rfl

theorem on_setGoal (name : String) (d : Draft) : (setGoal name).on d =
    if name ∈ d.nonTerminals then (.ok (), { d with goal := some name })
    else (.error (.invalidGoal name), d) := by
  by_cases h : name ∈ d.nonTerminals <;> simp [setGoal, h]

theorem on_addRule (text : String) (d : Draft) : (addRule text).on d =
    match d.alphabets.parseRule text with
    | .ok rule => (.ok (), { d with book := d.book.add rule })
    | .error error => (.error error, d) := by
  simp only [addRule, InPlace.on_bind, InPlace.on_get, InPlace.on_ofExcept, InPlace.on_modify]
  cases d.alphabets.parseRule text <;> rfl

theorem on_removeRule (rule : Rule) (d : Draft) : (removeRule rule).on d =
    (.ok (d.book.remove rule).1, { d with book := (d.book.remove rule).2 }) := by
  rw [removeRule, InPlace.on_modifyGet]

end Draft

end FormalLanguages.Grammar
