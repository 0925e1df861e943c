import Mathlib.Data.List.Forall2

/-!
Answers of operations that may be refused: what a successful answer says of the steps behind it.
-/

namespace FormalLanguages

variable {ε α β : Type}

theorem bind_eq_ok {first : Except ε α} {next : α → Except ε β} {result : β} :
    first >>= next = .ok result ↔ ∃ value, first = .ok value ∧ next value = .ok result := by
  cases first with
  | error e => simp [bind, Except.bind]
  | ok value => simp [bind, Except.bind]

/-- Where it is known when the first step succeeds, and with what, the next one is taken there. -/
theorem bind_eq_ok_iff_of_iff {first : Except ε α} {next : α → Except ε β} {result : β}
    {condition : Prop} {value : α}
    (h : ∀ other, first = .ok other ↔ condition ∧ value = other) :
    first >>= next = .ok result ↔ condition ∧ next value = .ok result := by
  simp only [bind_eq_ok, h]
  constructor
  · rintro ⟨_, ⟨hcondition, rfl⟩, hnext⟩
    exact ⟨hcondition, hnext⟩
  · rintro ⟨hcondition, hnext⟩
    exact ⟨value, ⟨hcondition, rfl⟩, hnext⟩

/-- After a check the next step is taken if it is passed. -/
theorem check_bind_eq_ok {check : Except ε Unit} {next : Unit → Except ε β} {result : β} :
    check >>= next = .ok result ↔ check = .ok () ∧ next () = .ok result := by
  rw [bind_eq_ok]
  exact ⟨fun ⟨_, hcheck, hnext⟩ => ⟨hcheck, hnext⟩, fun h => ⟨(), h⟩⟩

/-- What is made of a result makes no refusal, and undoes none. -/
theorem map_eq_error_iff {answer : Except ε α} {f : α → β} {error : ε} :
    answer.map f = .error error ↔ answer = .error error := by
  cases answer <;> simp [Except.map]

theorem eq_ok_of_toOption {answer : Except ε α} {value : α} (h : answer.toOption = some value) :
    answer = .ok value := by
  cases answer with
  | error e => simp [Except.toOption] at h
  | ok other => simpa [Except.toOption] using h

/-- A list of checks is passed when each of them is. -/
theorem forM_eq_ok_iff {items : List α} {check : α → Except ε Unit} :
    items.forM check = .ok () ↔ ∀ item ∈ items, check item = .ok () := by
  induction items with
  | nil => simp [pure, Except.pure]
  | cons item items ih =>
      rw [List.forM_eq_forM] at ih ⊢
      rw [List.forM_cons, check_bind_eq_ok, List.forall_mem_cons, ih]

/-- A list of steps gives the list of what each of them gives. -/
theorem mapM_eq_some_iff {step : α → Option β} {items : List α} {results : List β} :
    items.mapM step = some results ↔
      List.Forall₂ (fun result item => step item = some result) results items := by
  induction items generalizing results with
  | nil => simp [List.forall₂_nil_right_iff, eq_comm]
  | cons item items ih =>
      simp only [List.mapM_cons, List.forall₂_cons_right_iff, ← ih]
      constructor
      · intro h
        obtain ⟨first, hfirst, h⟩ := Option.bind_eq_some_iff.mp h
        obtain ⟨rest, hrest, h⟩ := Option.bind_eq_some_iff.mp h
        exact ⟨first, rest, hfirst, hrest, (Option.some.inj h).symm⟩
      · rintro ⟨first, rest, hfirst, hrest, rfl⟩
        simp [hfirst, hrest]

end FormalLanguages
