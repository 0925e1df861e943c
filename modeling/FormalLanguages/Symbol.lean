import FormalLanguages.Lexeme
import Std.Data.ExtTreeSet

/-!
Symbols, rule bodies and rules, with the order in which they are listed: terminals before
non-terminals, bodies letter by letter with a shorter body before its extensions, and rules by
head and then by body. Rule tables are finite sets in this order.
-/

namespace FormalLanguages

inductive Symbol where
  | terminal (c : Char)
  | nonTerminal (name : String)
  deriving DecidableEq, Repr

namespace Symbol

def isTerminal : Symbol → Bool
  | .terminal _ => true
  | .nonTerminal _ => false

/-- The symbol's name, never wrapped. -/
def name : Symbol → String
  | .terminal c => String.singleton c
  | .nonTerminal name => name

/-- How the symbol is written in a rule body. -/
def spelling : Symbol → String
  | .terminal c => String.singleton c
  | .nonTerminal name => reference name

def nonTerminal? : Symbol → Option String
  | .terminal _ => none
  | .nonTerminal name => some name

instance : Ord Symbol where
  compare
    | .terminal a, .terminal b => compare a b
    | .terminal _, .nonTerminal _ => .lt
    | .nonTerminal _, .terminal _ => .gt
    | .nonTerminal a, .nonTerminal b => compare a b

@[simp] theorem compare_terminal (a b : Char) :
    compare (terminal a) (terminal b) = compare a b := rfl

@[simp] theorem compare_terminal_nonTerminal (a : Char) (b : String) :
    compare (terminal a) (nonTerminal b) = .lt := rfl

@[simp] theorem compare_nonTerminal_terminal (a : String) (b : Char) :
    compare (nonTerminal a) (terminal b) = .gt := rfl

@[simp] theorem compare_nonTerminal (a b : String) :
    compare (nonTerminal a) (nonTerminal b) = compare a b := rfl

instance : Std.TransOrd Symbol where
  eq_swap {a b} := by
    cases a <;> cases b <;> simp [← Std.OrientedOrd.eq_swap]
  isLE_trans {a b c} hab hbc := by
    cases a <;> cases b <;> cases c <;> simp_all [Ordering.isLE]
    all_goals exact Std.TransCmp.isLE_trans hab hbc

instance : Std.LawfulEqOrd Symbol where
  compare_self {a} := by cases a <;> simp
  eq_of_compare {a b} h := by cases a <;> cases b <;> simp_all

end Symbol

/-- One right-hand side of a rule; the empty body stands for `λ`. -/
abbrev Body := List Symbol

namespace Body

/-- The text of a body in a rule. -/
def text (body : Body) : String :=
  if body.isEmpty then String.singleton lambda else String.join (body.map Symbol.spelling)

/-- The non-terminals of a body, from left to right. -/
def names (body : Body) : List String :=
  body.filterMap Symbol.nonTerminal?

/-- A chain body is a single non-terminal. -/
def isChain : Body → Bool
  | [.nonTerminal _] => true
  | _ => false

end Body

structure Rule where
  head : String
  body : Body
  deriving DecidableEq, Repr

namespace Rule

instance : Ord Rule where
  compare := compareLex (compareOn head) (compareOn body)

instance : Std.TransOrd Rule :=
  inferInstanceAs (Std.TransCmp (compareLex (compareOn head) (compareOn body)))

instance : Std.LawfulEqOrd Rule where
  compare_self := Std.ReflOrd.compare_self
  eq_of_compare {a b} h := by
    obtain ⟨hhead, hbody⟩ := Ordering.then_eq_eq.mp h
    have hhead : a.head = b.head := Std.LawfulEqOrd.eq_of_compare hhead
    have hbody : a.body = b.body := Std.LawfulEqOrd.eq_of_compare hbody
    cases a
    cases b
    simp_all

/-- The text of a rule: its head, never wrapped, the arrow and the body. -/
def text (rule : Rule) : String :=
  rule.head ++ String.singleton arrow ++ rule.body.text

end Rule

/-- A finite set of rules. A head without rules does not occur in it. -/
abbrev RuleTable := Std.ExtTreeSet Rule

namespace RuleTable

/-- The bodies of a head, in their order. -/
def bodies (rules : RuleTable) (head : String) : List Body :=
  (rules.toList.filter (·.head = head)).map Rule.body

theorem mem_bodies {rules : RuleTable} {head : String} {body : Body} :
    body ∈ rules.bodies head ↔ ⟨head, body⟩ ∈ rules := by
  simp only [bodies, List.mem_map, List.mem_filter, Std.ExtTreeSet.mem_toList,
    decide_eq_true_eq]
  constructor
  · rintro ⟨rule, ⟨hmem, rfl⟩, rfl⟩
    exact hmem
  · intro hmem
    exact ⟨⟨head, body⟩, ⟨hmem, rfl⟩, rfl⟩

/-- The rules that pass a test. -/
def keep (test : Rule → Bool) (rules : RuleTable) : RuleTable :=
  .ofList (rules.toList.filter test)

theorem mem_keep {test : Rule → Bool} {rules : RuleTable} {rule : Rule} :
    rule ∈ rules.keep test ↔ rule ∈ rules ∧ test rule = true := by
  simp [keep, Std.ExtTreeSet.mem_ofList]

/-- The heads with their bodies, each head once. -/
def rows (rules : RuleTable) : List (String × List Body) :=
  (rules.toList.map Rule.head).eraseDups.map fun head => (head, rules.bodies head)

end RuleTable

end FormalLanguages
