/-!
Filtered lists that shrink. A loop that only ever adds to a set of known things ends because the
things of a fixed list that are still unknown become fewer.
-/

namespace FormalLanguages

theorem length_filter_le_of_imp {α : Type} {p q : α → Bool} {list : List α}
    (himp : ∀ a ∈ list, p a = true → q a = true) :
    (list.filter p).length ≤ (list.filter q).length := by
  rw [← List.countP_eq_length_filter, ← List.countP_eq_length_filter]
  exact List.countP_mono_left himp

/-- A stricter test that rejects a member which the laxer one accepts keeps fewer members. -/
theorem length_filter_lt {α : Type} {p q : α → Bool} {list : List α} {a : α} (ha : a ∈ list)
    (himp : ∀ b ∈ list, p b = true → q b = true) (hp : p a = false) (hq : q a = true) :
    (list.filter p).length < (list.filter q).length := by
  obtain ⟨before, after, rfl⟩ := List.append_of_mem ha
  have hbefore : (before.filter p).length ≤ (before.filter q).length :=
    length_filter_le_of_imp fun b hb => himp b (by simp [hb])
  have hafter : (after.filter p).length ≤ (after.filter q).length :=
    length_filter_le_of_imp fun b hb => himp b (by simp [hb])
  simp only [List.filter_append, List.filter_cons, hp, hq, List.length_append, List.length_cons,
    if_true, Bool.false_eq_true, if_false]
  omega

end FormalLanguages
