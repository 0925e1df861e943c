/-!
Work that is done in place. It reads and changes a state and may be refused on the way; what it has
done to the state by then stays done.
-/

namespace FormalLanguages

/-- Work on a state that may be refused. The state outlives a refusal. -/
abbrev InPlace (ε σ : Type) := ExceptT ε (StateM σ)

namespace InPlace

variable {ε σ α β : Type}

/-- The answer of the work, and the state that it leaves. -/
def on (work : InPlace ε σ α) (state : σ) : Except ε α × σ :=
  (work.run.run state).run

/-- Work goes on from the state that the first part leaves, unless that part is refused. -/
@[simp] theorem on_bind (work : InPlace ε σ α) (next : α → InPlace ε σ β) (state : σ) :
    InPlace.on (work >>= next) state =
      match work.on state with
      | (.ok value, state') => (next value).on state'
      | (.error error, state') => (.error error, state') := by
  simp only [on, ExceptT.run_bind, StateT.run_bind, Id.run_bind]
  rcases (work.run.run state).run with ⟨answer, state'⟩
  cases answer <;> rfl

/-- Two pieces of work are both done when the second one is done on what the first one leaves. -/
theorem on_bind_eq_ok_iff {first : InPlace ε σ Unit} {next : InPlace ε σ α} {value : α}
    {state result : σ} :
    InPlace.on (first >>= fun _ => next) state = (.ok value, result) ↔
      ∃ state', first.on state = (.ok (), state') ∧ next.on state' = (.ok value, result) := by
  rw [on_bind]
  rcases first.on state with ⟨error | ⟨⟨⟩⟩, state'⟩ <;> simp

@[simp] theorem on_pure (value : α) (state : σ) :
    InPlace.on (pure value : InPlace ε σ α) state = (.ok value, state) := rfl

@[simp] theorem on_get (state : σ) :
    InPlace.on (get : InPlace ε σ σ) state = (.ok state, state) := rfl

@[simp] theorem on_modify (change : σ → σ) (state : σ) :
    InPlace.on (modify change : InPlace ε σ Unit) state = (.ok (), change state) := rfl

@[simp] theorem on_modifyGet (change : σ → α × σ) (state : σ) :
    InPlace.on (modifyGet change : InPlace ε σ α) state =
      (.ok (change state).1, (change state).2) := rfl

@[simp] theorem on_throw (error : ε) (state : σ) :
    InPlace.on (throw error : InPlace ε σ α) state = (.error error, state) := rfl

@[simp] theorem on_ofExcept (answer : Except ε α) (state : σ) :
    InPlace.on (MonadExcept.ofExcept answer) state = (answer, state) := by
  cases answer <;> rfl

end InPlace

end FormalLanguages
