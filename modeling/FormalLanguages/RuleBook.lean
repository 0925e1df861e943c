import FormalLanguages.Symbol
import Std.Data.ExtTreeMap

/-!
Rule books. A rule book holds rules under their heads, as rows: each head with the set of its bodies.
It can tell a head with an empty row from a head without one, which a rule table cannot; an operation
that takes bodies away also takes away the rows that this leaves empty.
-/

namespace FormalLanguages

/-- Heads with their bodies. A row may be empty. -/
abbrev RuleBook := Std.ExtTreeMap String (Std.ExtTreeSet Body)

namespace RuleBook

/-- The bodies in the row of a head. -/
def bodies (book : RuleBook) (head : String) : Std.ExtTreeSet Body :=
  book[head]?.getD ∅

/-- The rules that the rows list. -/
def rules (book : RuleBook) : RuleTable :=
  .ofList (book.toList.flatMap fun (head, bodies) => bodies.toList.map (Rule.mk head))

/-- Puts bodies into the row of a head, which is opened if there is none. -/
def addAll (head : String) (more : List Body) (book : RuleBook) : RuleBook :=
  book.insert head ((book.bodies head).insertMany more)

def add (rule : Rule) (book : RuleBook) : RuleBook :=
  book.addAll rule.head [rule.body]

/-- Whether the rule was there, and the book without it. A row that loses its last body goes. -/
def remove (rule : Rule) (book : RuleBook) : Bool × RuleBook :=
  match book[rule.head]? with
  | none => (false, book)
  | some bodies =>
    let rest := bodies.erase rule.body
    (rule.body ∈ bodies, if rest.isEmpty then book.erase rule.head else book.insert rule.head rest)

/-- Puts what a function makes of a row in its place, and drops the rows that are empty then. -/
def revise (change : String → Std.ExtTreeSet Body → Std.ExtTreeSet Body) (book : RuleBook) :
    RuleBook :=
  book.filterMap fun head bodies =>
    let changed := change head bodies
    if changed.isEmpty then none else some changed

/-- Drops the rows of heads that are not listed, the bodies with a symbol that fails the test, and
the rows that are empty then. -/
def retain (heads : Std.ExtTreeSet String) (test : Symbol → Bool) (book : RuleBook) : RuleBook :=
  revise (fun _ bodies => bodies.filter (·.all test)) (book.filter fun head _ => head ∈ heads)

/-- The book that some rules are written into, one after the other. -/
def ofRules (rules : RuleTable) : RuleBook :=
  rules.toList.foldl (fun book rule => book.add rule) ∅

/-- No row is empty. -/
def Tidy (book : RuleBook) : Prop :=
  ∀ head : String, book[head]? ≠ some ∅

variable {book : RuleBook} {rule : Rule} {head other : String} {body : Body} {more : List Body}

/-! ### Rows and rules -/

theorem mem_bodies_iff : body ∈ book.bodies head ↔ ∃ row, book[head]? = some row ∧ body ∈ row := by
  rw [bodies]
  cases book[head]? <;> simp

theorem mem_rules : rule ∈ book.rules ↔ rule.body ∈ book.bodies rule.head := by
  simp only [rules, Std.ExtTreeSet.mem_ofList, List.contains_iff_mem, List.mem_flatMap,
    List.mem_map, Std.ExtTreeSet.mem_toList, mem_bodies_iff]
  constructor
  · rintro ⟨⟨head, row⟩, hrow, body, hbody, rfl⟩
    exact ⟨row, Std.ExtTreeMap.mem_toList_iff_getElem?_eq_some.mp hrow, hbody⟩
  · rintro ⟨row, hrow, hbody⟩
    exact ⟨(rule.head, row), Std.ExtTreeMap.mem_toList_iff_getElem?_eq_some.mpr hrow, rule.body,
      hbody, rfl⟩

theorem rules_eq_iff {table : RuleTable} : book.rules = table ↔
    ∀ head body, body ∈ book.bodies head ↔ ⟨head, body⟩ ∈ table := by
  constructor
  · rintro rfl head body
    rw [mem_rules]
  · exact fun h => Std.ExtTreeSet.ext_mem fun rule => mem_rules.trans (h rule.head rule.body)

@[simp] theorem bodies_empty : (∅ : RuleBook).bodies head = ∅ := by
  simp [bodies]

theorem rules_empty : (∅ : RuleBook).rules = ∅ :=
  rules_eq_iff.mpr (by simp)

theorem tidy_empty : (∅ : RuleBook).Tidy := by
  simp [Tidy]

/-- In a tidy book the heads with a row are those with a body. -/
theorem Tidy.mem_iff (h : book.Tidy) : head ∈ book ↔ ∃ body, body ∈ book.bodies head := by
  rw [Std.ExtTreeMap.mem_iff_isSome_getElem?, Option.isSome_iff_exists]
  simp only [mem_bodies_iff]
  constructor
  · rintro ⟨row, hrow⟩
    have hne : row ≠ ∅ := by
      rintro rfl
      exact h head hrow
    rw [Ne, Std.ExtTreeSet.eq_empty_iff_forall_not_mem, Classical.not_forall] at hne
    obtain ⟨body, hbody⟩ := hne
    exact ⟨body, row, hrow, Classical.not_not.mp hbody⟩
  · rintro ⟨body, row, hrow, -⟩
    exact ⟨row, hrow⟩

/-- Tidy books with the same rules are the same. -/
theorem Tidy.eq_of_rules_eq {first second : RuleBook} (h : first.Tidy) (h' : second.Tidy)
    (hrules : first.rules = second.rules) : first = second := by
  have hmem {book : RuleBook} (h : book.Tidy) (head : String) : book[head]? =
      if (book.bodies head).isEmpty then none else some (book.bodies head) := by
    rw [bodies]
    cases hrow : book[head]? with
    | none => simp
    | some row =>
        have hne : row.isEmpty = false := by
          rw [Std.ExtTreeSet.isEmpty_eq_false_iff]
          rintro rfl
          exact h head hrow
        simp [hne]
  refine Std.ExtTreeMap.ext_getElem? fun head => ?_
  have hbodies : first.bodies head = second.bodies head := by
    refine Std.ExtTreeSet.ext_mem fun body => ?_
    rw [rules_eq_iff.mp hrules head body, mem_rules]
  rw [hmem h, hmem h', hbodies]

/-! ### More bodies -/

theorem getElem?_addAll : (book.addAll head more)[other]? =
    if head = other then some ((book.bodies head).insertMany more) else book[other]? := by
  simp only [addAll, Std.ExtTreeMap.getElem?_insert, Std.compare_eq_iff_eq]

theorem mem_bodies_addAll : body ∈ (book.addAll head more).bodies other ↔
    body ∈ book.bodies other ∨ head = other ∧ body ∈ more := by
  rw [bodies, getElem?_addAll]
  by_cases h : head = other
  · subst h
    simp [Std.ExtTreeSet.mem_insertMany_list]
  · simp [h, bodies]

theorem Tidy.addAll (h : book.Tidy) (hmore : more ≠ []) : (book.addAll head more).Tidy := by
  intro other
  rw [getElem?_addAll]
  split
  · obtain ⟨body, hbody⟩ := List.exists_mem_of_ne_nil more hmore
    intro hempty
    have hmem : body ∈ (book.bodies head).insertMany more := by
      simp [Std.ExtTreeSet.mem_insertMany_list, hbody]
    simp [Option.some.inj hempty] at hmem
  · exact h other

theorem mem_bodies_add : body ∈ (book.add rule).bodies head ↔
    body ∈ book.bodies head ∨ rule = ⟨head, body⟩ := by
  obtain ⟨ruleHead, ruleBody⟩ := rule
  rw [add, mem_bodies_addAll, List.mem_singleton, Rule.mk.injEq]
  exact or_congr_right (and_congr_right fun _ => eq_comm)

theorem rules_add (book : RuleBook) (rule : Rule) :
    (book.add rule).rules = book.rules.insert rule := by
  rw [rules_eq_iff]
  intro head body
  rw [mem_bodies_add, Std.ExtTreeSet.mem_insert, mem_rules, Std.compare_eq_iff_eq]
  exact or_comm

theorem Tidy.add (h : book.Tidy) (rule : Rule) : (book.add rule).Tidy :=
  h.addAll (List.cons_ne_nil _ _)

theorem mem_bodies_foldl_addAll (rows : List (String × List Body)) :
    body ∈ (rows.foldl (fun book row => book.addAll row.1 row.2) book).bodies head ↔
      body ∈ book.bodies head ∨ ∃ row ∈ rows, row.1 = head ∧ body ∈ row.2 := by
  induction rows generalizing book with
  | nil => simp
  | cons row rows ih =>
      rw [List.foldl_cons, ih, mem_bodies_addAll, or_assoc]
      simp

/-! ### One rule less -/

/-- The answer says whether the rule was there. -/
theorem remove_fst (book : RuleBook) (rule : Rule) :
    (book.remove rule).1 = decide (rule ∈ book.rules) := by
  rw [remove, Bool.eq_iff_iff, decide_eq_true_iff, mem_rules, mem_bodies_iff]
  cases book[rule.head]? <;> simp

theorem getElem?_remove_of_ne (h : rule.head ≠ head) :
    (book.remove rule).2[head]? = book[head]? := by
  unfold remove
  split
  · rfl
  · dsimp only
    split
    · simp [Std.ExtTreeMap.getElem?_erase, h]
    · simp [Std.ExtTreeMap.getElem?_insert, h]

/-- The row of the head has lost the body, or is gone with its last body. -/
theorem getElem?_remove : (book.remove rule).2[rule.head]? =
    book[rule.head]?.bind fun row =>
      if (row.erase rule.body).isEmpty then none else some (row.erase rule.body) := by
  rw [remove]
  cases hrow : book[rule.head]? with
  | none => exact hrow
  | some row =>
      dsimp only [Option.bind_some]
      split
      · simp
      · simp

theorem mem_bodies_remove : body ∈ (book.remove rule).2.bodies head ↔
    body ∈ book.bodies head ∧ rule ≠ ⟨head, body⟩ := by
  by_cases h : rule.head = head
  · subst h
    rw [bodies, getElem?_remove, bodies]
    cases book[rule.head]? with
    | none => simp
    | some row =>
        have hrest : body ∈ (row.erase rule.body) ↔ body ∈ row ∧ rule ≠ ⟨rule.head, body⟩ := by
          obtain ⟨ruleHead, ruleBody⟩ := rule
          simp [Std.ExtTreeSet.mem_erase, and_comm]
        rw [Option.bind_some, Option.getD_some, ← hrest]
        split
        · rename_i hempty
          simp [Std.ExtTreeSet.isEmpty_iff.mp hempty]
        · rfl
  · have hne : rule ≠ ⟨head, body⟩ := by
      rintro rfl
      exact h rfl
    rw [bodies, getElem?_remove_of_ne h, bodies]
    exact (and_iff_left hne).symm

theorem rules_remove (book : RuleBook) (rule : Rule) :
    (book.remove rule).2.rules = book.rules.erase rule := by
  rw [rules_eq_iff]
  intro head body
  rw [mem_bodies_remove, Std.ExtTreeSet.mem_erase, mem_rules, Ne, Ne, Std.compare_eq_iff_eq]
  exact and_comm

theorem Tidy.remove (h : book.Tidy) (rule : Rule) : (book.remove rule).2.Tidy := by
  intro head
  by_cases hhead : rule.head = head
  · subst hhead
    rw [getElem?_remove]
    cases book[rule.head]? with
    | none => simp
    | some row =>
        rw [Option.bind_some]
        split
        · simp
        · rename_i hne
          simpa [Std.ExtTreeSet.isEmpty_iff] using hne
  · rw [getElem?_remove_of_ne hhead]
    exact h head

/-! ### Revised rows -/

theorem getElem?_revise {change : String → Std.ExtTreeSet Body → Std.ExtTreeSet Body} :
    (book.revise change)[head]? =
      book[head]?.bind fun row =>
        if (change head row).isEmpty then none else some (change head row) := by
  rw [revise, Std.ExtTreeMap.getElem?_filterMap']

theorem tidy_revise (change : String → Std.ExtTreeSet Body → Std.ExtTreeSet Body)
    (book : RuleBook) : (book.revise change).Tidy := by
  intro head
  rw [getElem?_revise]
  cases book[head]? with
  | none => simp
  | some row =>
      rw [Option.bind_some]
      split
      · simp
      · rename_i hne
        simpa [Std.ExtTreeSet.isEmpty_iff] using hne

/-- Dropping empty rows takes no body away. -/
theorem mem_bodies_revise {change : String → Std.ExtTreeSet Body → Std.ExtTreeSet Body} :
    body ∈ (book.revise change).bodies head ↔ ∃ row, book[head]? = some row ∧
      body ∈ change head row := by
  rw [bodies, getElem?_revise]
  cases book[head]? with
  | none => simp
  | some row =>
      rw [Option.bind_some]
      split
      · rename_i hempty
        simp [Std.ExtTreeSet.isEmpty_iff.mp hempty]
      · simp

theorem mem_bodies_retain {heads : Std.ExtTreeSet String} {test : Symbol → Bool} :
    body ∈ (book.retain heads test).bodies head ↔
      body ∈ book.bodies head ∧ head ∈ heads ∧ body.all test = true := by
  rw [retain, mem_bodies_revise, mem_bodies_iff]
  simp only [Std.ExtTreeMap.getElem?_filter', Option.filter_eq_some_iff, Std.ExtTreeSet.mem_filter,
    Std.ExtTreeSet.get_eq, exists_prop]
  constructor
  · rintro ⟨row, ⟨hrow, hhead⟩, hbody, htest⟩
    exact ⟨⟨row, hrow, hbody⟩, of_decide_eq_true hhead, htest⟩
  · rintro ⟨⟨row, hrow, hbody⟩, hhead, htest⟩
    exact ⟨row, ⟨hrow, decide_eq_true hhead⟩, hbody, htest⟩

/-! ### Books of rules -/

theorem rules_foldl_add (rules : List Rule) :
    (rules.foldl (fun book rule => book.add rule) book).rules = book.rules.insertMany rules := by
  induction rules generalizing book with
  | nil => simp
  | cons rule rules ih => rw [List.foldl_cons, ih, rules_add, Std.ExtTreeSet.insertMany_cons]

theorem Tidy.foldl_add (h : book.Tidy) (rules : List Rule) :
    (rules.foldl (fun book rule => book.add rule) book).Tidy := by
  induction rules generalizing book with
  | nil => exact h
  | cons rule rules ih => exact ih (h.add rule)

theorem tidy_ofRules (rules : RuleTable) : (ofRules rules).Tidy :=
  tidy_empty.foldl_add _

theorem rules_ofRules (rules : RuleTable) : (ofRules rules).rules = rules := by
  rw [ofRules, rules_foldl_add, rules_empty]
  exact Std.ExtTreeSet.ext_mem fun rule => by simp [Std.ExtTreeSet.mem_insertMany_list]

end RuleBook

end FormalLanguages
