import FormalLanguages.Proofs.Answers
import FormalLanguages.Proofs.Lexemes

/-!
Faults of texts. A place of a text offends when a wrapper is opened or the text ends inside of one,
when one is closed outside of any, or when one is closed right after it is opened. Where a place is
inside a wrapper is said of the text before it alone. A text that is no sequence of lexemes has such
a place, and reading it blames the first one.
-/

namespace FormalLanguages.Lexeme

/-- The text ends inside a wrapper: it has a `<` with neither `<` nor `>` behind it. -/
def EndsInside (text : List Char) : Prop :=
  ∃ outside name, text = outside ++ '<' :: name ∧ '<' ∉ name ∧ '>' ∉ name

/-- The fault at a place of a text, given what stands before and after it. -/
inductive Offends : Fault → List Char → List Char → Prop where
  | unexpectedClose {before after : List Char} (houtside : ¬ EndsInside before) :
      Offends .unexpectedClose before ('>' :: after)
  | nestedOpen {before after : List Char} (hinside : EndsInside before) :
      Offends .nestedOpen before ('<' :: after)
  | emptyName {before after : List Char} : Offends .emptyName (before ++ ['<']) ('>' :: after)
  | unterminated {before : List Char} (hinside : EndsInside before) :
      Offends .unterminated before []

/-- The fault at the first place of a text that offends, where another text stands before. -/
def OffendsFirst (fault : Fault) (before text : List Char) : Prop :=
  ∃ part rest, text = part ++ rest ∧ Offends fault (before ++ part) rest ∧
    ∀ part' rest', text = part' ++ rest' → part'.length < part.length →
      ∀ fault', ¬ Offends fault' (before ++ part') rest'

variable {fault : Fault} {before text letters : List Char} {c : Char}
variable {state : Option (List Char)}

/-! ### Inside and outside -/

theorem endsInside_open : EndsInside (text ++ ['<']) :=
  ⟨text, [], rfl, List.not_mem_nil, List.not_mem_nil⟩

theorem not_endsInside_nil : ¬ EndsInside [] := by
  rintro ⟨outside, name, h, -⟩
  simp at h

/-- What the last character of a text says of its end. -/
theorem endsInside_append_iff :
    EndsInside (text ++ [c]) ↔ c = '<' ∨ c ≠ '>' ∧ EndsInside text := by
  constructor
  · rintro ⟨outside, name, heq, hopen, hclose⟩
    rcases List.eq_nil_or_concat name with rfl | ⟨name, last, rfl⟩
    · obtain ⟨-, hc⟩ := List.append_inj' heq rfl
      exact .inl (List.singleton_inj.mp hc)
    · rw [List.concat_eq_append] at heq hopen hclose
      rw [← List.cons_append, ← List.append_assoc] at heq
      obtain ⟨htext, hc⟩ := List.append_inj' heq rfl
      obtain rfl := List.singleton_inj.mp hc
      simp only [List.mem_append, not_or, List.mem_singleton] at hopen hclose
      exact .inr ⟨fun heq => hclose.2 heq.symm, outside, name, htext, hopen.1, hclose.1⟩
  · rintro (rfl | ⟨hc, outside, name, rfl, hopen, hclose⟩)
    · exact endsInside_open
    · by_cases hc' : c = '<'
      · subst hc'
        exact endsInside_open
      · exact ⟨outside, name ++ [c], by simp, by simp [hopen, Ne.symm hc'],
          by simp [hclose, Ne.symm hc]⟩

/-- A scan in this state has read the text: outside of wrappers, or inside of one with these
letters of its name, last one first. -/
def StateAfter (before : List Char) : Option (List Char) → Prop
  | none => ¬ EndsInside before
  | some letters => ∃ outside, before = outside ++ '<' :: letters.reverse ∧
      '<' ∉ letters ∧ '>' ∉ letters

theorem StateAfter.endsInside (h : StateAfter before (some letters)) : EndsInside before := by
  obtain ⟨outside, rfl, hopen, hclose⟩ := h
  exact ⟨outside, letters.reverse, rfl, by simpa using hopen, by simpa using hclose⟩

theorem stateAfter_open (before : List Char) : StateAfter (before ++ ['<']) (some []) :=
  ⟨before, rfl, List.not_mem_nil, List.not_mem_nil⟩

theorem stateAfter_close (before : List Char) : StateAfter (before ++ ['>']) none := by
  simp [StateAfter, endsInside_append_iff]

theorem StateAfter.bare (h : StateAfter before none) (hc : c ≠ '<') :
    StateAfter (before ++ [c]) none := by
  rw [StateAfter, endsInside_append_iff]
  rintro (rfl | ⟨-, hinside⟩)
  · exact hc rfl
  · exact h hinside

theorem StateAfter.letter (h : StateAfter before (some letters)) (hopen : c ≠ '<')
    (hclose : c ≠ '>') : StateAfter (before ++ [c]) (some (c :: letters)) := by
  obtain ⟨outside, rfl, hletters, hletters'⟩ := h
  exact ⟨outside, by simp, by simp [hletters, Ne.symm hopen], by simp [hletters', Ne.symm hclose]⟩

/-! ### Offences -/

theorem offends_outside_nil (houtside : StateAfter before none) : ¬ Offends fault before [] := by
  intro h
  cases h with
  | unterminated hinside => exact houtside hinside

theorem offends_inside_nil_iff (hinside : StateAfter before (some letters)) :
    Offends fault before [] ↔ fault = .unterminated := by
  constructor
  · intro h
    cases h
    rfl
  · rintro rfl
    exact .unterminated hinside.endsInside

theorem offends_outside_iff (houtside : StateAfter before none) :
    Offends fault before (c :: text) ↔ c = '>' ∧ fault = .unexpectedClose := by
  constructor
  · intro h
    cases h with
    | unexpectedClose => exact ⟨rfl, rfl⟩
    | nestedOpen hinside => exact absurd hinside houtside
    | emptyName => exact absurd endsInside_open houtside
  · rintro ⟨rfl, rfl⟩
    exact .unexpectedClose houtside

theorem offends_inside_iff (hinside : StateAfter before (some letters)) :
    Offends fault before (c :: text) ↔ c = '<' ∧ fault = .nestedOpen ∨
      c = '>' ∧ letters = [] ∧ fault = .emptyName := by
  have hends := hinside.endsInside
  constructor
  · intro h
    cases h with
    | unexpectedClose houtside => exact absurd hends houtside
    | nestedOpen => exact .inl ⟨rfl, rfl⟩
    | @emptyName before =>
        obtain ⟨outside, heq, hopen, -⟩ := hinside
        refine .inr ⟨rfl, ?_, rfl⟩
        -- a last letter of the name would be the `<`
        cases letters with
        | nil => rfl
        | cons last letters =>
            rw [List.reverse_cons, ← List.cons_append, ← List.append_assoc] at heq
            obtain ⟨-, hlast⟩ := List.append_inj' heq rfl
            simp_all
  · rintro (⟨rfl, rfl⟩ | ⟨rfl, rfl, rfl⟩)
    · exact .nestedOpen hends
    · obtain ⟨outside, rfl, -⟩ := hinside
      exact .emptyName

/-! ### The first offence -/

theorem offendsFirst_nil_iff : OffendsFirst fault before [] ↔ Offends fault before [] := by
  constructor
  · rintro ⟨part, rest, heq, hoffends, -⟩
    obtain ⟨rfl, rfl⟩ := List.append_eq_nil_iff.mp heq.symm
    simpa using hoffends
  · intro h
    exact ⟨[], [], rfl, by simpa using h, by simp⟩

/-- The first offence is here, or none is here and it is further on. -/
theorem offendsFirst_cons_iff : OffendsFirst fault before (c :: text) ↔
    Offends fault before (c :: text) ∨ (∀ fault', ¬ Offends fault' before (c :: text)) ∧
      OffendsFirst fault (before ++ [c]) text := by
  constructor
  · rintro ⟨part, rest, heq, hoffends, hfirst⟩
    cases part with
    | nil => exact .inl (by simp_all)
    | cons d part =>
        obtain ⟨rfl, rfl⟩ := List.cons.inj heq
        refine .inr ⟨fun fault' => ?_, part, rest, rfl, by simpa using hoffends, ?_⟩
        · simpa using hfirst [] _ rfl (by simp) fault'
        · intro part' rest' heq' hlt fault'
          have heq' : c :: (part ++ rest) = (c :: part') ++ rest' := congrArg (c :: ·) heq'
          simpa using hfirst (c :: part') rest' heq' (by simpa using hlt) fault'
  · rintro (h | ⟨hnone, part, rest, rfl, hoffends, hfirst⟩)
    · exact ⟨[], c :: text, rfl, by simpa using h, by simp⟩
    · refine ⟨c :: part, rest, rfl, by simpa using hoffends, ?_⟩
      intro part' rest' heq' hlt fault'
      cases part' with
      | nil =>
          obtain rfl : c :: (part ++ rest) = rest' := heq'
          simpa using hnone fault'
      | cons d part' =>
          obtain ⟨rfl, htail⟩ := List.cons.inj heq'
          simpa using hfirst part' rest' htail (by simpa using hlt) fault'

/-! ### Reading -/

/-- A scan ends with the fault at the first offence. -/
theorem scan_eq_error_iff (hstate : StateAfter before state) :
    scan state text = .error fault ↔ OffendsFirst fault before text := by
  fun_induction scan state text generalizing before with
  | case1 =>
      have hnone : ¬ Offends fault before [] := offends_outside_nil hstate
      simp [offendsFirst_nil_iff, hnone]
  | case2 letters =>
      rw [offendsFirst_nil_iff, offends_inside_nil_iff hstate]
      simp [eq_comm]
  | case3 text ih =>
      rw [ih (stateAfter_open before), offendsFirst_cons_iff]
      simp [offends_outside_iff hstate]
  | case4 text hopen =>
      rw [offendsFirst_cons_iff]
      simp [offends_outside_iff hstate, eq_comm]
  | case5 c text hopen hclose ih =>
      rw [map_eq_error_iff, ih (hstate.bare hopen), offendsFirst_cons_iff]
      simp [offends_outside_iff hstate, hclose]
  | case6 letters text =>
      rw [offendsFirst_cons_iff]
      simp [offends_inside_iff hstate, eq_comm]
  | case7 letters c text hopen hclose ih =>
      rw [ih (hstate.letter hopen hclose), offendsFirst_cons_iff]
      simp [offends_inside_iff hstate, hopen, hclose]
  | case8 letters c text hopen hclose hempty =>
      obtain rfl : c = '>' := by simpa using hclose
      obtain rfl : letters = [] := by simpa using hempty
      rw [offendsFirst_cons_iff]
      simp [offends_inside_iff hstate, eq_comm]
  | case9 letters c text hopen hclose hempty ih =>
      obtain rfl : c = '>' := by simpa using hclose
      have hletters : letters ≠ [] := by simpa using hempty
      rw [map_eq_error_iff, ih (stateAfter_close before), offendsFirst_cons_iff]
      simp [offends_inside_iff hstate, hletters]

/-- Exactly the texts that are written with writable lexemes are read, into these lexemes; so what
is written with lexemes is read into them again exactly when they are writable. Any other text is
refused with the fault at its first offence. -/
theorem tokenize_exact (text : String) :
    (∀ lexemes, tokenize text = .ok lexemes ↔
      untokenize lexemes = text ∧ ∀ lexeme ∈ lexemes, lexeme.IsWritable) ∧
    (∀ lexemes, tokenize (untokenize lexemes) = .ok lexemes ↔
      ∀ lexeme ∈ lexemes, lexeme.IsWritable) ∧
    ((∃ fault, tokenize text = .error fault) ↔
      ¬ ∃ lexemes, untokenize lexemes = text ∧ ∀ lexeme ∈ lexemes, lexeme.IsWritable) ∧
    ∀ fault, tokenize text = .error fault ↔ OffendsFirst fault [] text.toList := by
  refine ⟨fun lexemes => tokenize_eq_ok_iff, fun lexemes => ?_, ?_, fun fault => ?_⟩
  · rw [tokenize_eq_ok_iff, and_iff_right rfl]
  · simp only [← tokenize_eq_ok_iff]
    cases tokenize text <;> simp
  · exact scan_eq_error_iff not_endsInside_nil

-- a wrapper that is opened inside of another one comes before the empty one
example : tokenize "a<b<>>" = .error .nestedOpen := rfl

end FormalLanguages.Lexeme
