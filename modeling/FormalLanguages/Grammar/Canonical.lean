import FormalLanguages.Grammar.FreshName
import FormalLanguages.Grammar.RuleText
import FormalLanguages.Grammar.SymbolSets
import FormalLanguages.InPlace

/-!
The canonical form of a grammar: every symbol is reachable and derives a chain, no body is a single
non-terminal, and only the goal may have the empty body. It is made in five stages, and the
grammar after each of them is kept.
-/

namespace FormalLanguages.Grammar

/-- Drops the names that derive no chain, with the rules that use them. -/
def removeBarren (g : Grammar) : Grammar :=
  let generating := g.rules.generating
  { g with nonTerminals := .ofList (g.nonTerminals.toList.filter (· ∈ generating)) }.retainRules
    fun
      | .terminal _ => true
      | .nonTerminal name => name ∈ generating

/-- Drops the symbols that occur in nothing the goal derives, with the rules that use them. -/
def removeUnreachable (goal : String) (g : Grammar) : Grammar :=
  let letters := g.rules.reachableLetters goal
  let names := g.rules.reachable goal
  { g with
    terminals := .ofList (g.terminals.toList.filter (· ∈ letters))
    nonTerminals := .ofList (g.nonTerminals.toList.filter (· ∈ names)) }.retainRules
    fun
      | .terminal c => c ∈ letters
      | .nonTerminal name => name ∈ names

/-- The body with any of its nullable occurrences dropped, in every way. -/
def variants (nullable : Std.ExtTreeSet String) : Body → List Body
  | [] => [[]]
  | .terminal c :: body => (variants nullable body).map (.terminal c :: ·)
  | .nonTerminal name :: body =>
    (variants nullable body).map (.nonTerminal name :: ·) ++
      if name ∈ nullable then variants nullable body else []

/-- The rules that stand for one rule once nothing but the goal derives the empty chain. A shorter
body that is its own head says nothing and is left out. -/
def withoutNullable (nullable : Std.ExtTreeSet String) (rule : Rule) : List Rule :=
  ((variants nullable rule.body).filter fun body =>
    !body.isEmpty && (body = rule.body || body ≠ [.nonTerminal rule.head])).map (⟨rule.head, ·⟩)

/-- Takes the empty bodies away. A goal that derives the empty chain gets it back: as a body of its
own if no body refers to it, through a fresh goal otherwise. -/
def removeLambda (goal : String) (g : Grammar) : Grammar :=
  let nullable := g.rules.nullable
  let rules : RuleTable := .ofList (g.rules.toList.flatMap (withoutNullable nullable))
  if goal ∉ nullable then { g with rules }
  else if rules.toList.any fun rule => .nonTerminal goal ∈ rule.body then
    let fresh := ((NameSupply.mk g.nonTerminals []).fresh (goal ++ "'")).1
    { g with
      nonTerminals := g.nonTerminals.insert fresh
      goal := some fresh
      rules := (rules.insert ⟨fresh, []⟩).insert ⟨fresh, [.nonTerminal goal]⟩ }
  else { g with rules := rules.insert ⟨goal, []⟩ }

/-- Replaces the chain bodies of a declared name by the other bodies of the names that chain bodies
lead to. -/
def removeChains (g : Grammar) : Grammar :=
  let chains := g.rules.keep (·.body.isChain)
  let others := g.rules.keep (!·.body.isChain)
  let inherited := g.nonTerminals.toList.flatMap fun head =>
    (chains.reachable head).toList.flatMap fun name =>
      (others.bodies name).map fun body => Rule.mk head body
  { g with rules := others.insertMany inherited }

/-- The stages of the canonical form. -/
inductive Stage where
  | barren
  | unreachable
  | lambdaRules
  | chainRules
  /-- Once more the symbols that the two stages before have stranded. -/
  | stranded
  deriving DecidableEq, Repr

namespace Stage

def all : List Stage :=
  [.barren, .unreachable, .lambdaRules, .chainRules, .stranded]

def heading : Stage → String
  | .barren => "Removed barren symbols"
  | .unreachable => "Removed unreachable symbols"
  | .lambdaRules => "Removed λ-rules"
  | .chainRules => "Removed chain rules"
  | .stranded => "Removed stranded symbols"

end Stage

/-- The grammars that the stages leave. -/
structure Canonization where
  productive : Grammar
  connected : Grammar
  lambdaFree : Grammar
  chainFree : Grammar
  result : Grammar

/-- Runs the five stages. A grammar without a goal, or with one that derives no chain, has no
canonical form. -/
def canonize (g : Grammar) : Except Error Canonization := do
  let goal ← g.requireGoal
  if goal ∉ g.rules.generating then throw .emptyLanguage
  let productive := g.removeBarren
  let connected := productive.removeUnreachable goal
  let lambdaFree := connected.removeLambda goal
  let chainFree := lambdaFree.removeChains
  let currentGoal ← chainFree.requireGoal
  let result := chainFree.removeBarren.removeUnreachable currentGoal
  return { productive, connected, lambdaFree, chainFree, result }

/-- Every stage with the grammar that it leaves, in order. -/
def Canonization.snapshots (run : Canonization) : List (Stage × Grammar) :=
  [(.barren, run.productive), (.unreachable, run.connected), (.lambdaRules, run.lambdaFree),
    (.chainRules, run.chainFree), (.stranded, run.result)]

/-- The listing of one stage: its heading, both alphabets and the rules. -/
def stageLines (snapshot : Stage × Grammar) : List String :=
  [snapshot.1.heading, "T = " ++ snapshot.2.terminalsText, "N = " ++ snapshot.2.nonTerminalsText] ++
    snapshot.2.ruleLines

def Canonization.lines (run : Canonization) : List String :=
  run.snapshots.flatMap stageLines

def toCanonical (g : Grammar) : Except Error Grammar :=
  g.canonize.map Canonization.result

/-! ### In place -/

/-- A grammar that is worked on in place, and the lines that have been published so far. -/
structure Worksheet where
  grammar : Grammar
  published : List String := []

/-- Work on a sheet. What has been done to the sheet stays done when the work fails later. -/
abbrev Work := InPlace Error Worksheet

namespace Work

/-- Puts what a pass makes of the grammar in its place. -/
def change (pass : Grammar → Grammar) : Work Unit :=
  modify fun sheet => { sheet with grammar := pass sheet.grammar }

/-- Publishes the grammar as a stage has left it. -/
def publish (stage : Stage) : Work Unit :=
  modify fun sheet =>
    { sheet with published := sheet.published ++ stageLines (stage, sheet.grammar) }

/-- The goal that the grammar has now. -/
def currentGoal : Work String := do
  MonadExcept.ofExcept (← get).grammar.requireGoal

end Work

/-- Runs the five stages on the grammar of a sheet, and publishes it after each of them. -/
def canonizeInPlace : Work Unit := do
  let goal ← Work.currentGoal
  if goal ∉ (← get).grammar.rules.generating then throw .emptyLanguage
  Work.change removeBarren
  Work.publish .barren
  Work.change (removeUnreachable goal)
  Work.publish .unreachable
  Work.change (removeLambda goal)
  Work.publish .lambdaRules
  Work.change removeChains
  Work.publish .chainRules
  -- the goal may have moved to a fresh name
  let goal ← Work.currentGoal
  Work.change removeBarren
  Work.change (removeUnreachable goal)
  Work.publish .stranded

end FormalLanguages.Grammar
