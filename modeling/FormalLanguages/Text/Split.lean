/-!
Cutting texts: into fields between separators, at the first occurrence of a mark, and with every
occurrence of a mark replaced.
-/

namespace FormalLanguages.Text

/-- The fields between separators, empty ones included: always one more than separators. -/
def fields (isSeparator : Char → Bool) : List Char → List (List Char)
  | [] => [[]]
  | c :: text =>
    if isSeparator c then [] :: fields isSeparator text
    else
      match fields isSeparator text with
      | [] => [[c]]
      | field :: others => (c :: field) :: others

theorem length_fields (isSeparator : Char → Bool) (text : List Char) :
    (fields isSeparator text).length = text.countP isSeparator + 1 := by
  induction text with
  | nil => rfl
  | cons c text ih =>
      by_cases h : isSeparator c
      · simp [fields, h, ih]
      · cases hf : fields isSeparator text with
        | nil => simp [hf] at ih
        | cons field others => simp_all [fields]

/-- What stands before and after the first occurrence of a non-empty mark. -/
def cut? (mark : List Char) : List Char → Option (List Char × List Char)
  | [] => none
  | c :: text =>
    if mark.isPrefixOf (c :: text) then some ([], (c :: text).drop mark.length)
    else (cut? mark text).map fun (before, after) => (c :: before, after)

/-- A cut loses nothing but the mark. -/
theorem eq_append_of_cut? {mark text before after : List Char}
    (h : cut? mark text = some (before, after)) : text = before ++ mark ++ after := by
  induction text generalizing before with
  | nil => simp [cut?] at h
  | cons c text ih =>
      simp only [cut?] at h
      split at h
      · rename_i hmark
        obtain ⟨rfl, rfl⟩ : [] = before ∧ _ = after := by simpa using h
        simpa using (List.prefix_iff_eq_append.mp (List.isPrefixOf_iff_prefix.mp hmark)).symm
      · obtain ⟨⟨b, a⟩, hcut, hpair⟩ := Option.map_eq_some_iff.mp h
        obtain ⟨rfl, rfl⟩ : c :: b = before ∧ a = after := by simpa using hpair
        simp [ih hcut]

/-- The text with every occurrence of a non-empty mark replaced, read from the left; occurrences
do not overlap. -/
def replaceAll (mark new : List Char) : List Char → List Char
  | [] => []
  | c :: text =>
    if mark.isPrefixOf (c :: text) then
      new ++ replaceAll mark new (text.drop (mark.length - 1))
    else c :: replaceAll mark new text
termination_by text => text.length
decreasing_by all_goals simp only [List.length_drop, List.length_cons]; omega

end FormalLanguages.Text
