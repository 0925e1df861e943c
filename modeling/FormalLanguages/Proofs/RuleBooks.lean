import FormalLanguages.Grammar.Draft.Forms
import FormalLanguages.Proofs.Canonical.ChainRules

/-!
The passes on rule books. A pass on the rows of a book does to its rules what the pass on a rule
table does, and it leaves no empty row, whatever rows it starts from.
-/

namespace FormalLanguages.RuleBook

open Grammar

variable {book : RuleBook} {head : String} {body : Body}

/-- The bodies of the heads are these, and only heads that have one have a row. -/
structure Lists (book : RuleBook) (has : String → Body → Prop) : Prop where
  mem_bodies_iff : ∀ head body, body ∈ book.bodies head ↔ has head body
  mem_iff : ∀ head, head ∈ book ↔ ∃ body, has head body

theorem Tidy.lists {has : String → Body → Prop} (h : book.Tidy)
    (hrules : ∀ head body, ⟨head, body⟩ ∈ book.rules ↔ has head body) : book.Lists has := by
  have hbodies (head : String) (body : Body) : body ∈ book.bodies head ↔ has head body :=
    mem_rules.symm.trans (hrules head body)
  exact ⟨hbodies, fun head => h.mem_iff.trans (exists_congr (hbodies head))⟩

theorem rules_retain (heads : Std.ExtTreeSet String) (test : Symbol → Bool) (book : RuleBook) :
    (book.retain heads test).rules =
      book.rules.keep fun rule => rule.head ∈ heads ∧ rule.body.all test := by
  rw [rules_eq_iff]
  intro head body
  rw [mem_bodies_retain, RuleTable.mem_keep, mem_rules, decide_eq_true_iff]

theorem mem_of_mem_revise {change : String → Std.ExtTreeSet Body → Std.ExtTreeSet Body}
    (h : head ∈ book.revise change) : head ∈ book := by
  rw [Std.ExtTreeMap.mem_iff_isSome_getElem?, getElem?_revise] at h
  rw [Std.ExtTreeMap.mem_iff_isSome_getElem?]
  exact Option.isSome_of_isSome_bind h

theorem mem_of_mem_retain {heads : Std.ExtTreeSet String} {test : Symbol → Bool}
    (h : head ∈ book.retain heads test) : head ∈ heads := by
  have hkept := mem_of_mem_revise h
  rw [Std.ExtTreeMap.mem_iff_isSome_getElem?, Std.ExtTreeMap.getElem?_filter'] at hkept
  obtain ⟨row, hrow⟩ := Option.isSome_iff_exists.mp hkept
  exact of_decide_eq_true (Option.filter_eq_some_iff.mp hrow).2

/-! ### Empty bodies -/

theorem head_eq_of_mem_withoutNullable {nullable : Std.ExtTreeSet String} {rule variant : Rule}
    (h : variant ∈ Grammar.withoutNullable nullable rule) : variant.head = rule.head := by
  obtain ⟨_, -, rfl⟩ := List.mem_map.mp h
  rfl

theorem mem_bodies_withoutNullable {nullable : Std.ExtTreeSet String} :
    body ∈ (book.withoutNullable nullable).bodies head ↔ ∃ old ∈ book.bodies head,
      ⟨head, body⟩ ∈ Grammar.withoutNullable nullable ⟨head, old⟩ := by
  simp only [withoutNullable, mem_bodies_revise, Std.ExtTreeSet.mem_ofList, List.contains_iff_mem,
    List.mem_map, List.mem_flatMap, Std.ExtTreeSet.mem_toList]
  simp only [mem_bodies_iff]
  constructor
  · rintro ⟨row, hrow, ⟨variantHead, variantBody⟩, ⟨old, hold, hvariant⟩, rfl⟩
    obtain rfl : variantHead = head := head_eq_of_mem_withoutNullable hvariant
    exact ⟨old, ⟨row, hrow, hold⟩, hvariant⟩
  · rintro ⟨old, ⟨row, hrow, hold⟩, hvariant⟩
    exact ⟨row, hrow, ⟨head, body⟩, ⟨old, hold, hvariant⟩, rfl⟩

theorem rules_withoutNullable (nullable : Std.ExtTreeSet String) (book : RuleBook) :
    (book.withoutNullable nullable).rules =
      .ofList (book.rules.toList.flatMap (Grammar.withoutNullable nullable)) := by
  rw [rules_eq_iff]
  intro head body
  simp only [mem_bodies_withoutNullable, Std.ExtTreeSet.mem_ofList, List.contains_iff_mem,
    List.mem_flatMap, Std.ExtTreeSet.mem_toList, mem_rules]
  constructor
  · rintro ⟨old, hold, hvariant⟩
    exact ⟨⟨head, old⟩, hold, hvariant⟩
  · rintro ⟨⟨oldHead, old⟩, hold, hvariant⟩
    obtain rfl : head = oldHead := head_eq_of_mem_withoutNullable hvariant
    exact ⟨old, hold, hvariant⟩

theorem mem_bodies_insert {row : Std.ExtTreeSet Body} {other : String} (h : head ∉ book) :
    body ∈ RuleBook.bodies (book.insert head row) other ↔
      body ∈ book.bodies other ∨ head = other ∧ body ∈ row := by
  rw [bodies, bodies, Std.ExtTreeMap.getElem?_insert]
  by_cases heq : head = other
  · subst heq
    simp [Std.ExtTreeMap.getElem?_eq_none h]
  · simp [heq]

theorem Tidy.insert {row : Std.ExtTreeSet Body} (h : book.Tidy) (hrow : row ≠ ∅) :
    Tidy (book.insert head row) := by
  intro other
  rw [Std.ExtTreeMap.getElem?_insert]
  split
  · exact fun heq => hrow (Option.some.inj heq)
  · exact h other

/-- A new row of two bodies holds two new rules. -/
theorem rules_insert_pair (h : head ∉ book) (first second : Body) :
    RuleBook.rules (book.insert head (.ofList [first, second])) =
      (book.rules.insert ⟨head, first⟩).insert ⟨head, second⟩ := by
  rw [rules_eq_iff]
  intro other body
  rw [mem_bodies_insert h]
  simp only [Std.ExtTreeSet.mem_ofList, List.contains_iff_mem, List.mem_cons, List.not_mem_nil,
    or_false, Std.ExtTreeSet.mem_insert, Std.compare_eq_iff_eq, Rule.mk.injEq, mem_rules]
  tauto

/-! ### Chain bodies -/

/-- A name inherits from the others that its chain bodies lead to. -/
theorem exists_mem_inherited_iff {names : Std.ExtTreeSet String} {chains : RuleTable} :
    (∃ row ∈ inherited names chains book, row.1 = head ∧ body ∈ row.2) ↔
      head ∈ names ∧ ∃ name ∈ chains.reachable head, name ≠ head ∧ body ∈ book.bodies name := by
  simp only [inherited, List.mem_flatMap, Std.ExtTreeSet.mem_toList, List.mem_filterMap,
    Option.map_eq_some_iff, Std.ExtTreeSet.mem_erase, Std.compare_eq_iff_eq, ne_eq, mem_bodies_iff]
  constructor
  · rintro ⟨_, ⟨head, hhead, name, ⟨hne, hname⟩, row, hrow, rfl⟩, rfl, hbody⟩
    exact ⟨hhead, name, hname, fun h => hne h.symm, row, hrow,
      Std.ExtTreeSet.mem_toList.mp hbody⟩
  · rintro ⟨hhead, name, hname, hne, row, hrow, hbody⟩
    exact ⟨(head, row.toList), ⟨head, hhead, name, ⟨fun h => hne h.symm, hname⟩, row, hrow, rfl⟩,
      rfl, Std.ExtTreeSet.mem_toList.mpr hbody⟩

theorem mem_bodies_map {change : String → Std.ExtTreeSet Body → Std.ExtTreeSet Body} :
    body ∈ RuleBook.bodies (book.map change) head ↔
      ∃ row, book[head]? = some row ∧ body ∈ change head row := by
  simp only [mem_bodies_iff, Std.ExtTreeMap.getElem?_map, Option.map_eq_some_iff]
  constructor
  · rintro ⟨_, ⟨row, hrow, rfl⟩, hbody⟩
    exact ⟨row, hrow, hbody⟩
  · rintro ⟨row, hrow, hbody⟩
    exact ⟨_, ⟨row, hrow, rfl⟩, hbody⟩

theorem getElem?_filter_isEmpty :
    (book.filter fun _ bodies => !bodies.isEmpty)[head]? =
      book[head]?.filter fun bodies => !bodies.isEmpty :=
  Std.ExtTreeMap.getElem?_filter'

/-- Dropping the empty rows takes no body away. -/
theorem mem_bodies_filter_isEmpty :
    body ∈ RuleBook.bodies (book.filter fun _ bodies => !bodies.isEmpty) head ↔
      body ∈ book.bodies head := by
  simp only [mem_bodies_iff, getElem?_filter_isEmpty, Option.filter_eq_some_iff]
  refine exists_congr fun row => ⟨fun h => ⟨h.1.1, h.2⟩, fun h => ⟨⟨h.1, ?_⟩, h.2⟩⟩
  rw [Bool.not_eq_true', Std.ExtTreeSet.isEmpty_eq_false_iff]
  rintro rfl
  exact Std.ExtTreeSet.not_mem_empty h.2

theorem tidy_withoutChains (names : Std.ExtTreeSet String) (book : RuleBook) :
    (book.withoutChains names).Tidy := by
  intro head h
  rw [withoutChains, getElem?_filter_isEmpty, Option.filter_eq_some_iff] at h
  simp at h

theorem rules_withoutChains (names : Std.ExtTreeSet String) (book : RuleBook) :
    (book.withoutChains names).rules =
      (book.rules.keep (!·.body.isChain)).insertMany (names.toList.flatMap fun head =>
        ((book.rules.keep (·.body.isChain)).reachable head).toList.flatMap fun name =>
          ((book.rules.keep (!·.body.isChain)).bodies name).map fun body => Rule.mk head body) := by
  have hothers {head : String} {body : Body} :
      body ∈ RuleBook.bodies (book.map fun _ bodies => bodies.filter (!·.isChain)) head ↔
        body ∈ book.bodies head ∧ body.isChain = false := by
    rw [mem_bodies_map, mem_bodies_iff]
    simp [Std.ExtTreeSet.mem_filter, Std.ExtTreeSet.get_eq, ← exists_and_right, and_assoc]
  rw [rules_eq_iff]
  intro head body
  rw [withoutChains, mem_bodies_filter_isEmpty, mem_bodies_foldl_addAll, exists_mem_inherited_iff]
  simp only [hothers, Std.ExtTreeSet.mem_insertMany_list, List.contains_iff_mem,
    RuleTable.mem_keep, mem_rules, Bool.not_eq_true', List.mem_flatMap, Std.ExtTreeSet.mem_toList,
    List.mem_map, RuleTable.mem_bodies, Rule.mk.injEq]
  constructor
  · rintro (hown | ⟨hhead, name, hname, -, hbody⟩)
    · exact .inl hown
    · exact .inr ⟨head, hhead, name, hname, body, hbody, rfl, rfl⟩
  · rintro (hown | ⟨start, hhead, name, hname, _, hbody, rfl, rfl⟩)
    · exact .inl hown
    · -- what a head would inherit from itself is its own
      by_cases hne : name = start
      · subst hne
        exact .inl hbody
      · exact .inr ⟨hhead, name, hname, hne, hbody⟩

end FormalLanguages.RuleBook
