import FormalLanguages.Shrinking
import FormalLanguages.Symbol

/-!
Sets of symbols that a rule table determines: the names that derive some chain, those that derive
the empty chain, and the symbols that occur in what a name derives. Each is a least fixed point,
reached by adding names until no rule yields a new one.
-/

namespace FormalLanguages.RuleTable

/-- A symbol that needs no rule, or whose name is known. -/
def isCovered (free : Symbol → Bool) (known : Std.ExtTreeSet String) : Symbol → Bool
  | .terminal c => free (.terminal c)
  | .nonTerminal name => free (.nonTerminal name) || name ∈ known

/-- The unknown heads that have a body of covered symbols. -/
def newlyCovered (free : Symbol → Bool) (rules : RuleTable) (known : Std.ExtTreeSet String) :
    List String :=
  (rules.toList.filter fun rule =>
    rule.head ∉ known ∧ rule.body.all (isCovered free known)).map Rule.head

theorem mem_newlyCovered {free : Symbol → Bool} {rules : RuleTable}
    {known : Std.ExtTreeSet String} {name : String} :
    name ∈ newlyCovered free rules known ↔
      name ∉ known ∧ ∃ body, ⟨name, body⟩ ∈ rules ∧ body.all (isCovered free known) = true := by
  simp only [newlyCovered, List.mem_map, List.mem_filter, Std.ExtTreeSet.mem_toList,
    decide_eq_true_eq]
  constructor
  · rintro ⟨⟨head, body⟩, ⟨hmem, hnew, hbody⟩, rfl⟩
    exact ⟨hnew, body, hmem, hbody⟩
  · rintro ⟨hnew, body, hmem, hbody⟩
    exact ⟨⟨name, body⟩, ⟨hmem, hnew, hbody⟩, rfl⟩

/-- With the heads that a round adds, fewer rules have an unknown head. -/
theorem length_unknown_lt {free : Symbol → Bool} {rules : RuleTable}
    {known : Std.ExtTreeSet String} (hnew : newlyCovered free rules known ≠ []) :
    (rules.toList.filter
        (·.head ∉ known.insertMany (newlyCovered free rules known))).length <
      (rules.toList.filter (·.head ∉ known)).length := by
  obtain ⟨name, hname⟩ := List.exists_mem_of_ne_nil _ hnew
  obtain ⟨hunknown, body, hmem, _⟩ := mem_newlyCovered.mp hname
  refine length_filter_lt (a := ⟨name, body⟩) (Std.ExtTreeSet.mem_toList.mpr hmem) ?_ ?_ ?_
  · simp_all
  · simp_all
  · simp_all

/-- The known names, with the heads added whose bodies they cover, as long as there are any. -/
def saturate (free : Symbol → Bool) (rules : RuleTable) (known : Std.ExtTreeSet String) :
    Std.ExtTreeSet String :=
  if newlyCovered free rules known = [] then known
  else saturate free rules (known.insertMany (newlyCovered free rules known))
termination_by (rules.toList.filter (·.head ∉ known)).length
decreasing_by exact length_unknown_lt ‹_›

/-- The names that derive some chain of terminals. -/
def generating (rules : RuleTable) : Std.ExtTreeSet String :=
  saturate Symbol.isTerminal rules ∅

/-- The names that derive the empty chain. -/
def nullable (rules : RuleTable) : Std.ExtTreeSet String :=
  saturate (fun _ => false) rules ∅

/-! ### What a name leads to -/

/-- What has been found from a name on: letters and names, and those of the names whose bodies are
still to be looked at, the next one first. -/
structure Exploration where
  letters : Std.ExtTreeSet Char
  names : Std.ExtTreeSet String
  pending : List String

namespace Exploration

/-- Nothing but the name has been found. -/
def start (goal : String) : Exploration :=
  { letters := ∅, names := {goal}, pending := [goal] }

/-- Notes a symbol of a body. A name that is found for the first time is looked at next. -/
def note (e : Exploration) : Symbol → Exploration
  | .terminal c => { e with letters := e.letters.insert c }
  | .nonTerminal name =>
    if name ∈ e.names then e
    else { e with names := e.names.insert name, pending := name :: e.pending }

/-- Notes all symbols in the bodies of a name. -/
def lookAt (rules : RuleTable) (head : String) (e : Exploration) : Exploration :=
  (rules.bodies head).flatten.foldl note e

/-- Looks at the next name, if there is one. -/
def next? (rules : RuleTable) (e : Exploration) : Option Exploration :=
  match e.pending with
  | [] => none
  | head :: pending => some ({ e with pending }.lookAt rules head)

/-- The names that bodies mention, once for every mention. -/
def mentions (rules : RuleTable) : List String :=
  rules.toList.flatMap (·.body.names)

/-- The mentions of names that have not been found, and the names that are to be looked at. -/
def ahead (rules : RuleTable) (e : Exploration) : Nat :=
  ((mentions rules).filter (· ∉ e.names)).length + e.pending.length

theorem ahead_note_le {rules : RuleTable} {symbol : Symbol} (e : Exploration)
    (hsymbol : ∀ name, symbol = .nonTerminal name → name ∈ mentions rules) :
    (e.note symbol).ahead rules ≤ e.ahead rules := by
  cases symbol with
  | terminal c => exact Nat.le_refl _
  | nonTerminal name =>
      rw [note]
      split
      · exact Nat.le_refl _
      · -- the mention of the name pays for its place among those to be looked at
        rename_i hnew
        have hlt : ((mentions rules).filter (· ∉ e.names.insert name)).length <
            ((mentions rules).filter (· ∉ e.names)).length := by
          refine length_filter_lt (hsymbol name rfl) (fun other _ hother => ?_) ?_ ?_
          · simp only [Std.ExtTreeSet.mem_insert, not_or, decide_eq_true_eq] at hother ⊢
            exact hother.2
          · simp
          · simpa using hnew
        simp only [ahead, List.length_cons]
        omega

theorem ahead_foldl_note_le {rules : RuleTable} {symbols : List Symbol} (e : Exploration)
    (hsymbols : ∀ name, .nonTerminal name ∈ symbols → name ∈ mentions rules) :
    (symbols.foldl note e).ahead rules ≤ e.ahead rules := by
  induction symbols generalizing e with
  | nil => exact Nat.le_refl _
  | cons symbol symbols ih =>
      have hfirst : (e.note symbol).ahead rules ≤ e.ahead rules :=
        e.ahead_note_le fun name hname => hsymbols name (hname ▸ List.mem_cons_self)
      have hrest := ih (e.note symbol) fun name hname =>
        hsymbols name (List.mem_cons_of_mem _ hname)
      exact Nat.le_trans hrest hfirst

theorem mem_mentions_of_rule {rules : RuleTable} {head name : String} {body : Body}
    (hrule : ⟨head, body⟩ ∈ rules) (hname : .nonTerminal name ∈ body) : name ∈ mentions rules :=
  List.mem_flatMap.mpr ⟨⟨head, body⟩, Std.ExtTreeSet.mem_toList.mpr hrule,
    List.mem_filterMap.mpr ⟨_, hname, rfl⟩⟩

theorem ahead_lookAt_le (rules : RuleTable) (head : String) (e : Exploration) :
    (e.lookAt rules head).ahead rules ≤ e.ahead rules := by
  refine ahead_foldl_note_le e fun name hname => ?_
  obtain ⟨body, hbody, hname⟩ := List.mem_flatten.mp hname
  exact mem_mentions_of_rule (mem_bodies.mp hbody) hname

theorem next?_eq_none_iff {rules : RuleTable} {e : Exploration} :
    e.next? rules = none ↔ e.pending = [] := by
  rw [next?]
  split <;> simp_all

theorem next?_eq_some_iff {rules : RuleTable} {e e' : Exploration} : e.next? rules = some e' ↔
    ∃ head pending, e.pending = head :: pending ∧ { e with pending }.lookAt rules head = e' := by
  rw [next?]
  split
  · simp_all
  · rename_i head pending hpending
    constructor
    · intro h
      exact ⟨head, pending, hpending, Option.some.inj h⟩
    · rintro ⟨head, pending, heq, rfl⟩
      obtain ⟨rfl, rfl⟩ := List.cons.inj (hpending.symm.trans heq)
      rfl

theorem ahead_lt_of_next? {rules : RuleTable} {e e' : Exploration} (h : e.next? rules = some e') :
    e'.ahead rules < e.ahead rules := by
  obtain ⟨head, pending, hpending, rfl⟩ := next?_eq_some_iff.mp h
  have hle := ahead_lookAt_le rules head { e with pending }
  have hlt : ({ e with pending } : Exploration).ahead rules < e.ahead rules := by
    simp only [ahead, hpending, List.length_cons]
    omega
  exact Nat.lt_of_le_of_lt hle hlt

end Exploration

/-- Looks at one name after the other until none is left to be looked at. -/
def explore (rules : RuleTable) (e : Exploration) : Exploration :=
  match _h : e.next? rules with
  | none => e
  | some e' => explore rules e'
termination_by e.ahead rules
decreasing_by exact Exploration.ahead_lt_of_next? _h

/-- The names in what a name derives, itself included. -/
def reachable (rules : RuleTable) (goal : String) : Std.ExtTreeSet String :=
  (explore rules (.start goal)).names

/-- The terminals in what a name derives. -/
def reachableLetters (rules : RuleTable) (goal : String) : Std.ExtTreeSet Char :=
  (explore rules (.start goal)).letters

end FormalLanguages.RuleTable
