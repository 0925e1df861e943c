import FormalLanguages.Text.Blank
import FormalLanguages.Text.Split
import Mathlib.Data.List.TakeWhile

/-!
What cutting a text undoes. Trimming leaves a text without blanks alone, fields are the inverse of
joining parts that hold no separator, a cut finds the first occurrence of a mark, and no mark is
left where all of them have been replaced.
-/

namespace FormalLanguages.Text

/-! ### Blanks -/

theorem mem_of_mem_trim {c : Char} {text : List Char} (h : c ∈ trim text) : c ∈ text := by
  have hstart : c ∈ trimStart text := by
    apply List.mem_reverse.mp
    apply (List.dropWhile_sublist isBlank).subset
    simpa [trim, trimEnd] using h
  exact (List.dropWhile_sublist isBlank).subset hstart

theorem isInfix_trim (text : List Char) : trim text <:+: text := by
  have hend : trim text <+: trimStart text := by
    rw [trim, trimEnd, ← List.reverse_suffix, List.reverse_reverse]
    exact List.dropWhile_suffix isBlank
  exact hend.isInfix.trans (List.dropWhile_suffix isBlank).isInfix

/-- Trimming leaves nothing of blanks, and something of any other text. -/
theorem trim_eq_nil_iff {text : List Char} : trim text = [] ↔ ∀ c ∈ text, isBlank c = true := by
  rw [trim, trimEnd, List.reverse_eq_nil_iff, List.dropWhile_eq_nil_iff]
  simp only [List.mem_reverse]
  constructor
  · intro h
    have hstart : trimStart text = [] := by
      by_contra hne
      -- the first character that is left is no blank
      have hhead : isBlank ((trimStart text).head hne) = false :=
        List.head_dropWhile_not isBlank hne
      rw [h _ (List.head_mem hne)] at hhead
      exact Bool.noConfusion hhead
    exact List.dropWhile_eq_nil_iff.mp hstart
  · intro h c hc
    exact h c ((List.dropWhile_sublist isBlank).subset hc)

theorem dropWhile_isBlank_eq_self {text : List Char} (h : ∀ c ∈ text, isBlank c = false) :
    text.dropWhile isBlank = text := by
  cases text with
  | nil => rfl
  | cons c text => simp [h c List.mem_cons_self]

theorem trim_eq_self {text : List Char} (h : ∀ c ∈ text, isBlank c = false) :
    trim text = text := by
  rw [trim, trimStart, dropWhile_isBlank_eq_self h, trimEnd, dropWhile_isBlank_eq_self]
  · simp
  · intro c hc
    exact h c (List.mem_reverse.mp hc)

/-! ### Fields -/

variable {isSeparator : Char → Bool}

theorem fields_cons_of_not {c : Char} (hc : isSeparator c = false) (text : List Char) :
    ∃ field others, fields isSeparator text = field :: others ∧
      fields isSeparator (c :: text) = (c :: field) :: others := by
  cases hfields : fields isSeparator text with
  | nil =>
      have hlength := length_fields isSeparator text
      simp [hfields] at hlength
  | cons field others => exact ⟨field, others, rfl, by simp [fields, hc, hfields]⟩

theorem not_separator_of_mem_fields {text field : List Char}
    (hfield : field ∈ fields isSeparator text) {c : Char} (hc : c ∈ field) :
    isSeparator c = false := by
  induction text generalizing field with
  | nil =>
      obtain rfl : field = [] := by simpa [fields] using hfield
      simp at hc
  | cons d text ih =>
      cases hd : isSeparator d with
      | true =>
          have hfield : field = [] ∨ field ∈ fields isSeparator text := by
            simpa [fields, hd] using hfield
          rcases hfield with rfl | hfield
          · simp at hc
          · exact ih hfield hc
      | false =>
          obtain ⟨first, others, hfields, hcons⟩ := fields_cons_of_not hd text
          rw [hcons] at hfield
          rcases List.mem_cons.mp hfield with rfl | hfield
          · rcases List.mem_cons.mp hc with rfl | hc
            · exact hd
            · apply ih _ hc
              simp [hfields]
          · apply ih _ hc
            simp [hfields, hfield]

theorem fields_eq_singleton {text : List Char} (h : ∀ c ∈ text, isSeparator c = false) :
    fields isSeparator text = [text] := by
  induction text with
  | nil => rfl
  | cons c text ih =>
      have htext := ih fun d hd => h d (List.mem_cons_of_mem c hd)
      simp [fields, h c List.mem_cons_self, htext]

/-- A separator cuts a text in two, with the fields of both sides. -/
theorem fields_append {c : Char} (hc : isSeparator c = true) (before after : List Char) :
    fields isSeparator (before ++ c :: after) =
      fields isSeparator before ++ fields isSeparator after := by
  induction before with
  | nil => simp [fields, hc]
  | cons d before ih =>
      cases hd : isSeparator d with
      | true => simp [fields, hd, ih]
      | false =>
          obtain ⟨field, others, hfields, hcons⟩ := fields_cons_of_not hd before
          rw [hfields] at ih
          rw [hcons, List.cons_append]
          simp [fields, hd, ih]

/-- The pieces of a text that is cut at all its separators. -/
inductive Pieces (isSeparator : Char → Bool) : List Char → List (List Char) → Prop where
  | last {piece : List Char} (h : ∀ c ∈ piece, isSeparator c = false) :
      Pieces isSeparator piece [piece]
  | cut {piece rest : List Char} {separator : Char} {pieces : List (List Char)}
      (h : ∀ c ∈ piece, isSeparator c = false) (hseparator : isSeparator separator = true)
      (hrest : Pieces isSeparator rest pieces) :
      Pieces isSeparator (piece ++ separator :: rest) (piece :: pieces)

theorem Pieces.cons {c : Char} (hc : isSeparator c = false) {text piece : List Char}
    {pieces : List (List Char)} (h : Pieces isSeparator text (piece :: pieces)) :
    Pieces isSeparator (c :: text) ((c :: piece) :: pieces) := by
  cases h with
  | last h => exact .last (List.forall_mem_cons.mpr ⟨hc, h⟩)
  | cut h hseparator hrest => exact .cut (List.forall_mem_cons.mpr ⟨hc, h⟩) hseparator hrest

theorem pieces_fields (text : List Char) : Pieces isSeparator text (fields isSeparator text) := by
  induction text with
  | nil => exact .last (by simp)
  | cons c text ih =>
      cases hc : isSeparator c with
      | true =>
          have hnone : ∀ d ∈ ([] : List Char), isSeparator d = false := by simp
          rw [fields, if_pos hc]
          exact .cut hnone hc ih
      | false =>
          obtain ⟨field, others, hfields, hcons⟩ := fields_cons_of_not hc text
          rw [hfields] at ih
          rw [hcons]
          exact ih.cons hc

/-- The fields are the pieces between separators. -/
theorem fields_eq_iff {text : List Char} {pieces : List (List Char)} :
    fields isSeparator text = pieces ↔ Pieces isSeparator text pieces := by
  constructor
  · rintro rfl
    exact pieces_fields text
  · intro h
    induction h with
    | last h => exact fields_eq_singleton h
    | cut h hseparator _ ih =>
        rw [fields_append hseparator, fields_eq_singleton h, ih, List.singleton_append]

/-- The fields of joined parts are the parts. -/
theorem fields_intercalate {c : Char} (hc : isSeparator c = true) {parts : List (List Char)}
    (hne : parts ≠ []) (h : ∀ part ∈ parts, ∀ d ∈ part, isSeparator d = false) :
    fields isSeparator ([c].intercalate parts) = parts := by
  induction parts with
  | nil => exact absurd rfl hne
  | cons part parts ih =>
      have hpart := h part List.mem_cons_self
      cases parts with
      | nil => rw [List.intercalate_singleton, fields_eq_singleton hpart]
      | cons next parts =>
          have hrest := ih (by simp) fun other hother => h other (List.mem_cons_of_mem part hother)
          rw [List.intercalate_cons_cons, List.append_assoc, List.singleton_append,
            fields_append hc, fields_eq_singleton hpart, hrest, List.singleton_append]

/-! ### The first occurrence of a mark -/

theorem cut?_singleton {c : Char} {before : List Char} (h : c ∉ before) (after : List Char) :
    cut? [c] (before ++ c :: after) = some (before, after) := by
  induction before with
  | nil => simp [cut?]
  | cons d before ih =>
      have hne : c ≠ d := List.ne_of_not_mem_cons h
      have hrest := ih (List.not_mem_of_not_mem_cons h)
      simp [cut?, hne, hrest]

theorem cut?_eq_none_iff {mark text : List Char} (hmark : mark ≠ []) :
    cut? mark text = none ↔ ¬ mark <:+: text := by
  induction text with
  | nil => simp [cut?, hmark]
  | cons c text ih =>
      rw [cut?, List.infix_cons_iff, ← List.isPrefixOf_iff_prefix]
      split
      · simp_all
      · simp_all

/-- No occurrence of the mark begins before the cut. -/
theorem length_le_of_cut? {mark text before after before' after' : List Char}
    (h : cut? mark text = some (before, after)) (htext : text = before' ++ mark ++ after') :
    before.length ≤ before'.length := by
  induction text generalizing before before' with
  | nil => simp [cut?] at h
  | cons c text ih =>
      rw [cut?] at h
      split at h
      · obtain ⟨rfl, -⟩ : [] = before ∧ _ = after := by simpa using h
        exact Nat.zero_le _
      · rename_i hmark
        obtain ⟨⟨first, rest⟩, hcut, hpair⟩ := Option.map_eq_some_iff.mp h
        obtain ⟨rfl, rfl⟩ : c :: first = before ∧ rest = after := by simpa using hpair
        cases before' with
        | nil =>
            have hbegins : mark <+: c :: text := ⟨after', by simpa using htext.symm⟩
            exact absurd (List.isPrefixOf_iff_prefix.mpr hbegins) hmark
        | cons d before' =>
            obtain ⟨-, htext⟩ := List.cons.inj htext
            exact Nat.succ_le_succ (ih hcut htext)

/-- A text is cut at the first occurrence of a mark. -/
theorem cut?_eq_some_iff {mark text before after : List Char} (hmark : mark ≠ []) :
    cut? mark text = some (before, after) ↔ text = before ++ mark ++ after ∧
      ∀ before' after', text = before' ++ mark ++ after' → before.length ≤ before'.length := by
  constructor
  · exact fun h => ⟨eq_append_of_cut? h, fun before' after' => length_le_of_cut? h⟩
  · rintro ⟨htext, hfirst⟩
    cases hcut : cut? mark text with
    | none => exact absurd ⟨before, after, htext.symm⟩ ((cut?_eq_none_iff hmark).mp hcut)
    | some parts =>
        obtain ⟨before', after'⟩ := parts
        have heq := eq_append_of_cut? hcut
        have hlength : before.length = before'.length :=
          Nat.le_antisymm (hfirst before' after' heq) (length_le_of_cut? hcut htext)
        rw [htext, List.append_assoc, List.append_assoc] at heq
        obtain ⟨rfl, hrest⟩ := List.append_inj heq hlength
        rw [List.append_cancel_left hrest]

/-- What stands before the first occurrence of a character is determined. -/
theorem eq_of_append_cons_eq {c : Char} {before before' after after' : List Char}
    (h : c ∉ before) (h' : c ∉ before') (heq : before ++ c :: after = before' ++ c :: after') :
    before = before' ∧ after = after' := by
  have hcut := cut?_singleton h after
  rw [heq, cut?_singleton h' after'] at hcut
  simpa [eq_comm] using hcut

/-- A text begins behind the characters that are not its first one. -/
theorem infix_of_infix_append {c : Char} {part before after : List Char} (h : c ∉ before)
    (hinside : c :: part <:+: before ++ after) : c :: part <:+: after := by
  induction before with
  | nil => exact hinside
  | cons d before ih =>
      rw [List.cons_append] at hinside
      rcases List.infix_cons_iff.mp hinside with hbegins | hinside
      · exact absurd (List.cons_prefix_cons.mp hbegins).1 (List.ne_of_not_mem_cons h)
      · exact ih (List.not_mem_of_not_mem_cons h) hinside

/-! ### Replacement -/

variable {mark new : List Char}

theorem replaceAll_cons_of_not {c : Char} {text : List Char}
    (h : ¬ mark.isPrefixOf (c :: text)) :
    replaceAll mark new (c :: text) = c :: replaceAll mark new text := by
  rw [replaceAll, if_neg h]

theorem replaceAll_eq_self {text : List Char} (h : ¬ mark <:+: text) :
    replaceAll mark new text = text := by
  induction text with
  | nil => rw [replaceAll]
  | cons c text ih =>
      have hbegins : ¬ mark.isPrefixOf (c :: text) := by
        intro hmark
        exact h (List.isPrefixOf_iff_prefix.mp hmark).isInfix
      have htext : ¬ mark <:+: text := fun hmark => h (List.infix_cons hmark)
      rw [replaceAll_cons_of_not hbegins, ih htext]

theorem replaceAll_mark (h : mark ≠ []) : replaceAll mark new mark = new := by
  cases mark with
  | nil => exact absurd rfl h
  | cons c mark =>
      have hbegins : (c :: mark).isPrefixOf (c :: mark) := by simp
      rw [replaceAll, if_pos hbegins]
      simp [replaceAll]

/-- What a replaced text begins with, short of the replacements, it has begun with before. -/
theorem prefix_of_prefix_replaceAll {d : Char} {text part : List Char} (hd : d ∉ part)
    (h : part <+: replaceAll mark [d] text) : part <+: text := by
  fun_induction replaceAll mark [d] text generalizing part with
  | case1 => exact h
  | case2 c text hmark ih =>
      rcases List.prefix_cons_iff.mp h with rfl | ⟨part, rfl, -⟩
      · exact List.nil_prefix
      · simp at hd
  | case3 c text hmark ih =>
      rcases List.prefix_cons_iff.mp h with rfl | ⟨part, rfl, hpart⟩
      · exact List.nil_prefix
      · have hd : d ∉ part := List.not_mem_of_not_mem_cons hd
        exact List.cons_prefix_cons.mpr ⟨rfl, ih hd hpart⟩

/-- A character that the mark does not have cannot complete the mark anew. -/
theorem not_infix_replaceAll {d : Char} (hmark : mark ≠ []) (hd : d ∉ mark) (text : List Char) :
    ¬ mark <:+: replaceAll mark [d] text := by
  intro h
  fun_induction replaceAll mark [d] text with
  | case1 => exact hmark (List.infix_nil.mp h)
  | case2 c text hbegins ih =>
      rcases List.infix_cons_iff.mp h with h | h
      · rcases List.prefix_cons_iff.mp h with heq | ⟨rest, rfl, -⟩
        · exact hmark heq
        · simp at hd
      · exact ih h
  | case3 c text hbegins ih =>
      rcases List.infix_cons_iff.mp h with h | h
      · rw [← replaceAll_cons_of_not hbegins] at h
        exact hbegins (List.isPrefixOf_iff_prefix.mpr (prefix_of_prefix_replaceAll hd h))
      · exact ih h

end FormalLanguages.Text
