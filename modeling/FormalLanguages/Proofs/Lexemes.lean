import FormalLanguages.Lexeme
import FormalLanguages.Proofs.Texts

/-!
Texts and lexemes. A text is read into the lexemes that it is written with, provided that wrapped
names are not empty and no wrapper stands within a lexeme; and such a wrapped name occurs in a text
only as a lexeme.
-/

namespace FormalLanguages.Lexeme

/-- A character that is no wrapper, or a non-empty name without wrappers. -/
def IsWritable : Lexeme → Prop
  | .bare c => c ≠ '<' ∧ c ≠ '>'
  | .wrapped name => name ≠ "" ∧ '<' ∉ name.toList ∧ '>' ∉ name.toList

@[simp] theorem spelling_bare (c : Char) : (bare c).spelling = [c] := rfl

@[simp] theorem spelling_wrapped (name : String) :
    (wrapped name).spelling = '<' :: name.toList ++ ['>'] := rfl

theorem isLambda_iff {lexeme : Lexeme} : lexeme.isLambda = true ↔ lexeme = .bare lambda := by
  cases lexeme with
  | bare c => simp [isLambda]
  | wrapped name => simp [isLambda]

/-! ### Reading what is written -/

/-- Inside a wrapper the letters of the name are collected up to its end. -/
theorem scan_name {letters rest : List Char} (hopen : '<' ∉ rest) (hclose : '>' ∉ rest)
    (hne : letters.reverse ++ rest ≠ []) (text : List Char) :
    scan (some letters) (rest ++ '>' :: text) =
      (scan none text).map (.wrapped (String.ofList (letters.reverse ++ rest)) :: ·) := by
  induction rest generalizing letters with
  | nil =>
      have hletters : letters.isEmpty = false := by simpa using hne
      simp [scan, hletters]
  | cons c rest ih =>
      have hc : c ≠ '<' := (List.ne_of_not_mem_cons hopen).symm
      have hc' : c ≠ '>' := (List.ne_of_not_mem_cons hclose).symm
      have hne : (c :: letters).reverse ++ rest ≠ [] := by simp
      have hrest :=
        ih (List.not_mem_of_not_mem_cons hopen) (List.not_mem_of_not_mem_cons hclose) hne
      rw [List.cons_append, scan, if_neg hc, if_pos hc', hrest]
      simp

theorem scan_spelling {lexeme : Lexeme} (h : lexeme.IsWritable) (text : List Char) :
    scan none (lexeme.spelling ++ text) = (scan none text).map (lexeme :: ·) := by
  cases lexeme with
  | bare c => simp [scan, h.1, h.2]
  | wrapped name =>
      obtain ⟨hne, hopen, hclose⟩ := h
      have hne : [].reverse ++ name.toList ≠ [] := by simpa using hne
      have hname := scan_name hopen hclose hne text
      rw [spelling_wrapped, List.cons_append, List.cons_append, List.append_assoc,
        List.singleton_append, scan, if_pos rfl, hname]
      simp

theorem scan_flatMap_spelling {lexemes : List Lexeme} (h : ∀ lexeme ∈ lexemes, lexeme.IsWritable) :
    scan none (lexemes.flatMap spelling) = .ok lexemes := by
  induction lexemes with
  | nil => rfl
  | cons lexeme lexemes ih =>
      have hrest := ih fun other hother => h other (List.mem_cons_of_mem lexeme hother)
      rw [List.flatMap_cons, scan_spelling (h lexeme List.mem_cons_self), hrest]
      rfl

/-! ### Writing what has been read -/

/-- The part of a wrapped name that a scan has seen. -/
def seen : Option (List Char) → List Char
  | none => []
  | some letters => '<' :: letters.reverse

theorem map_cons_eq_ok {ε α : Type} {answer : Except ε (List α)} {first : α} {result : List α}
    (h : answer.map (first :: ·) = .ok result) :
    ∃ rest, answer = .ok rest ∧ first :: rest = result := by
  cases answer with
  | error e => simp [Except.map] at h
  | ok rest => exact ⟨rest, rfl, by simpa [Except.map] using h⟩

theorem flatMap_spelling_of_scan {state : Option (List Char)} {text : List Char}
    {lexemes : List Lexeme} (h : scan state text = .ok lexemes)
    (hstate : ∀ letters ∈ state, '<' ∉ letters ∧ '>' ∉ letters) :
    lexemes.flatMap spelling = seen state ++ text ∧ ∀ lexeme ∈ lexemes, lexeme.IsWritable := by
  fun_induction scan state text generalizing lexemes with
  | case1 =>
      obtain rfl := Except.ok.inj h
      simp [seen]
  | case2 => simp at h
  | case3 text ih =>
      obtain ⟨htext, hlexemes⟩ := ih h (by simp)
      exact ⟨by simpa [seen] using htext, hlexemes⟩
  | case4 => simp at h
  | case5 c text hopen hclose ih =>
      obtain ⟨rest, hrest, rfl⟩ := map_cons_eq_ok h
      obtain ⟨htext, hlexemes⟩ := ih hrest (by simp)
      refine ⟨by simp [seen, htext], ?_⟩
      simpa [IsWritable, hopen, hclose] using hlexemes
  | case6 => simp at h
  | case7 letters c text hopen hclose ih =>
      obtain ⟨hopens, hcloses⟩ := hstate letters rfl
      obtain ⟨htext, hlexemes⟩ := ih h (by simp_all [eq_comm])
      exact ⟨by simpa [seen] using htext, hlexemes⟩
  | case8 => simp at h
  | case9 letters c text hopen hclose hempty ih =>
      obtain ⟨rest, hrest, rfl⟩ := map_cons_eq_ok h
      obtain ⟨htext, hlexemes⟩ := ih hrest (by simp)
      have hname : IsWritable (.wrapped (String.ofList letters.reverse)) := by
        have hletters := hstate letters rfl
        simp_all [IsWritable]
      refine ⟨?_, List.forall_mem_cons.mpr ⟨hname, hlexemes⟩⟩
      obtain rfl : c = '>' := by simpa using hclose
      simp [seen, htext]

/-- A text is read into the writable lexemes that it is written with. -/
theorem tokenize_eq_ok_iff {text : String} {lexemes : List Lexeme} :
    tokenize text = .ok lexemes ↔
      untokenize lexemes = text ∧ ∀ lexeme ∈ lexemes, lexeme.IsWritable := by
  constructor
  · intro h
    obtain ⟨htext, hlexemes⟩ := flatMap_spelling_of_scan h (by simp)
    refine ⟨?_, hlexemes⟩
    rw [untokenize, htext]
    simp [seen]
  · rintro ⟨rfl, hlexemes⟩
    rw [tokenize, untokenize, String.toList_ofList, scan_flatMap_spelling hlexemes]

/-! ### Wrapped names within a text -/

/-- What looks like a wrapped name is one. -/
theorem mem_of_infix_flatMap_spelling {lexemes : List Lexeme} {name : String}
    (h : ∀ lexeme ∈ lexemes, lexeme.IsWritable) (hname : '>' ∉ name.toList)
    (hinside : (wrapped name).spelling <:+: lexemes.flatMap spelling) :
    wrapped name ∈ lexemes := by
  induction lexemes with
  | nil => simp at hinside
  | cons lexeme lexemes ih =>
      have hfirst := h lexeme List.mem_cons_self
      have ih := ih fun other hother => h other (List.mem_cons_of_mem lexeme hother)
      rw [List.flatMap_cons] at hinside
      cases lexeme with
      | bare c =>
          have hc : '<' ∉ [c] := by simpa [eq_comm] using hfirst.1
          exact List.mem_cons_of_mem _ (ih (Text.infix_of_infix_append hc hinside))
      | wrapped other =>
          obtain ⟨-, hopen, hclose⟩ := hfirst
          rw [spelling_wrapped other, List.cons_append, List.cons_append] at hinside
          rcases List.infix_cons_iff.mp hinside with hbegins | hinside
          · -- both names end at the first closing wrapper
            obtain ⟨-, rest, heq⟩ := List.cons_prefix_cons.mp hbegins
            have heq : name.toList ++ '>' :: rest =
                other.toList ++ '>' :: lexemes.flatMap spelling := by simpa using heq
            rw [String.toList_inj.mp (Text.eq_of_append_cons_eq hname hclose heq).1]
            exact List.mem_cons_self
          · have hafter : '<' ∉ other.toList ++ ['>'] := by simp [hopen]
            exact List.mem_cons_of_mem _ (ih (Text.infix_of_infix_append hafter hinside))

theorem infix_flatMap_spelling {lexemes : List Lexeme} {lexeme : Lexeme} (h : lexeme ∈ lexemes) :
    lexeme.spelling <:+: lexemes.flatMap spelling := by
  obtain ⟨before, after, rfl⟩ := List.append_of_mem h
  refine ⟨before.flatMap spelling, after.flatMap spelling, ?_⟩
  simp

end FormalLanguages.Lexeme
