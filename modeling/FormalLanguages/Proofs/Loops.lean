/-!
Loops. A loop goes on from state to state as long as it can. It comes to rest when every round
lessens something, and where it rests is what a recursion gives that goes on in the same way.
-/

namespace FormalLanguages

/-- The loop that starts in the first state rests in the second one, after so many rounds. -/
inductive Rests {σ : Type} (next? : σ → Option σ) : Nat → σ → σ → Prop where
  | here {s : σ} (hnext : next? s = none) : Rests next? 0 s s
  | round {n : Nat} {s t last : σ} (hnext : next? s = some t) (hrests : Rests next? n t last) :
      Rests next? (n + 1) s last

variable {σ : Type} {next? : σ → Option σ} {ahead : σ → Nat} {loop : σ → σ}

/-- A recursion that stays where the loop rests, and gives the same before and after a round, gives
the state in which the loop rests. It rests after no more rounds than what every round lessens has
room for. -/
theorem exists_rests (hless : ∀ s t, next? s = some t → ahead t < ahead s)
    (hnone : ∀ s, next? s = none → loop s = s)
    (hsome : ∀ s t, next? s = some t → loop s = loop t) (s : σ) :
    ∃ n ≤ ahead s, Rests next? n s (loop s) := by
  induction hahead : ahead s using Nat.strongRecOn generalizing s with
  | ind bound ih =>
      subst hahead
      cases hnext : next? s with
      | none =>
          rw [hnone s hnext]
          exact ⟨0, Nat.zero_le _, .here hnext⟩
      | some t =>
          have hlt := hless s t hnext
          obtain ⟨n, hn, hrests⟩ := ih (ahead t) hlt t rfl
          rw [hsome s t hnext]
          exact ⟨n + 1, by omega, .round hnext hrests⟩

end FormalLanguages
