import FormalLanguages.Grammar.Basic
import FormalLanguages.Grammar.FreshName

/-!
The Chomsky form of a grammar: every body is one terminal or two non-terminals, and only the goal
may have the empty body. Longer bodies are split by fresh names, each of which stands for one
terminal or for the rest of a body and is shared wherever the same is meant.
-/

namespace FormalLanguages.Grammar

/-- What a fresh name stands for. -/
inductive Role where
  /-- A terminal in a body of two symbols under a head. -/
  | standIn (head : String) (c : Char)
  /-- A terminal in a longer body. -/
  | bracket (c : Char)
  /-- The symbols of a longer body from some place on. -/
  | remainder (body : Body)
  deriving DecidableEq, Repr

namespace Role

/-- The text that the fresh name is made from. -/
def base : Role → String
  | .standIn head c => head ++ String.singleton c
  | .bracket c => "[" ++ String.singleton c ++ "]"
  | .remainder body => String.join (body.map Symbol.name)

/-- What the fresh name derives in one or more steps. -/
def meaning : Role → Body
  | .standIn _ c => [.terminal c]
  | .bracket c => [.terminal c]
  | .remainder body => body

end Role

/-- The names in use, the roles that have a name so far and the rules made so far. -/
structure Splitting where
  supply : NameSupply
  roles : List (Role × String) := []
  rules : RuleTable := ∅

namespace Splitting

def add (rule : Rule) (s : Splitting) : Splitting :=
  { s with rules := s.rules.insert rule }

/-- Makes up a name for a role. -/
def invent (role : Role) (s : Splitting) : String × Splitting :=
  let (name, supply) := s.supply.fresh role.base
  (name, { s with supply, roles := (role, name) :: s.roles })

/-- A non-terminal for a symbol: itself, or the name in the given role of a terminal. -/
def lift (role : Char → Role) (symbol : Symbol) (s : Splitting) : Symbol × Splitting :=
  match symbol with
  | .nonTerminal name => (.nonTerminal name, s)
  | .terminal c =>
    match s.roles.lookup (role c) with
    | some name => (.nonTerminal name, s)
    | none =>
      let (name, s) := s.invent (role c)
      (.nonTerminal name, s.add ⟨name, [.terminal c]⟩)

/-- Two non-terminals that derive `first`, `second` and then `rest`. -/
def split (first second : Symbol) : Body → Splitting → Body × Splitting
  | [], s =>
    let (left, s) := s.lift .bracket first
    let (right, s) := s.lift .bracket second
    ([left, right], s)
  | third :: rest, s =>
    let (left, s) := s.lift .bracket first
    let role := .remainder (second :: third :: rest)
    match s.roles.lookup role with
    | some name => ([left, .nonTerminal name], s)
    | none =>
      let (name, s) := s.invent role
      let (body, s) := split second third rest s
      ([left, .nonTerminal name], s.add ⟨name, body⟩)

/-- Adds a rule, split as needed. A chain rule, or an empty body off the goal, is dropped: a
canonical grammar has none. -/
def addSplit (goal : Option String) (s : Splitting) (rule : Rule) : Splitting :=
  match rule.body with
  | [] => if goal = some rule.head then s.add rule else s
  | [.terminal _] => s.add rule
  | [.nonTerminal _] => s
  | [first, second] =>
    let (left, s) := s.lift (.standIn rule.head) first
    let (right, s) := s.lift (.standIn rule.head) second
    s.add ⟨rule.head, [left, right]⟩
  | first :: second :: rest =>
    let (body, s) := split first second rest s
    s.add ⟨rule.head, body⟩

end Splitting

/-- The Chomsky form of a canonical grammar. -/
def toChomsky (g : Grammar) : Grammar :=
  let s : Splitting := { supply := { taken := g.nonTerminals } }
  let s := g.rules.toList.foldl (Splitting.addSplit g.goal) s
  { g with nonTerminals := g.nonTerminals.insertMany s.supply.issued, rules := s.rules }

end FormalLanguages.Grammar
