import FormalLanguages.Proofs.Generation.Soundness

/-!
When a search loses nothing. An invariant of tasks secures some letters if it says of every task
that one of the branches from there comes to them, and that the branches before this one end in
time: with no chain that is too long, and with no loop that is caught further out. What is secured
is found. So a kind of rule tables is searched completely once there is an invariant for it.
-/

namespace FormalLanguages.Generation

/-- The invariant says that a search with these settings comes from the task to the letters. -/
structure Secures (rows : Rows) (settings : Settings) (final : List Char) (P : Task → Prop) :
    Prop where
  done : ∀ letters, P (.read [] letters) → letters = final
  leave : ∀ path frames letters, P (.read (⟨[], path⟩ :: frames) letters) →
    P (.read frames letters)
  letter : ∀ c symbols path frames letters,
    P (.read (⟨.terminal c :: symbols, path⟩ :: frames) letters) →
      P (.read (⟨symbols, path⟩ :: frames) (c :: letters))
  enter : ∀ name symbols path frames letters,
    P (.read (⟨.nonTerminal name :: symbols, path⟩ :: frames) letters) →
      path.count name ≤ settings.max ∧
        P (.expand name path (⟨symbols, path⟩ :: frames) letters (rows.bodies name))
  exhausted : ∀ name path frames letters, ¬ P (.expand name path frames letters [])
  /-- The letters lie behind the next body or behind a later one. -/
  bodies : ∀ name path frames letters body others,
    P (.expand name path frames letters (body :: others)) →
      P (.read (⟨body, name :: path⟩ :: frames) letters) ∨
        P (.expand name path frames letters others)
  /-- No body ends the bodies of its name. -/
  goes_on : ∀ name path frames letters body others,
    P (.expand name path frames letters (body :: others)) → ∀ harvest harvest' outcome,
      Runs rows settings (.read (⟨body, name :: path⟩ :: frames) letters) harvest harvest'
        outcome →
      (∀ letters', outcome = .chain letters' → letters'.length ≤ settings.max) ∧
        ∀ looped, outcome = .loopAt looped → looped = name

variable {rows : Rows} {settings : Settings} {final : List Char} {P : Task → Prop} {task : Task}
variable {harvest harvest' : Harvest} {outcome : Outcome} {goal : String} {body : Body}
variable {bodies : List Body}

/-- A run finds what is secured for its task, or ends with it. -/
theorem Runs.mem_found_of_secures (hP : Secures rows settings final P)
    (h : Runs rows settings task harvest harvest' outcome) (htask : P task)
    (hwindow : settings.min ≤ final.length ∧ final.length ≤ settings.max) :
    settings.order.chain final ∈ harvest'.found ∨ outcome = .chain final := by
  induction h with
  | done letters => exact .inr (congrArg Outcome.chain (hP.done letters htask))
  | leave _ ih => exact ih (hP.leave _ _ _ htask)
  | letter _ ih => exact ih (hP.letter _ _ _ _ _ htask)
  | enter _ _ ih => exact ih (hP.enter _ _ _ _ _ htask).2
  | recur _ hcount =>
      exact absurd (hP.enter _ _ _ _ _ htask).1 (Nat.not_le_of_lt hcount)
  | exhausted => exact absurd htask (hP.exhausted _ _ _ _)
  | tooLong hbody hlong =>
      have hshort := (hP.goes_on _ _ _ _ _ _ htask _ _ _ hbody).1 _ rfl
      exact absurd hshort (Nat.not_le_of_lt hlong)
  | offered _ _ hothers ihbody ihothers =>
      rcases hP.bodies _ _ _ _ _ _ htask with htask | htask
      · refine .inl (hothers.mem_found (Settings.mem_found_offer.mpr ?_))
        rcases ihbody htask with hfound | hchain
        · exact .inl hfound
        · obtain rfl := Outcome.chain.inj hchain
          exact .inr ⟨hwindow, rfl⟩
      · exact ihothers htask
  | next _ hended hothers ihbody ihothers =>
      -- a loop that is caught here has lost nothing of its body
      rcases hP.bodies _ _ _ _ _ _ htask with htask | htask
      · refine .inl (hothers.mem_found ((ihbody htask).resolve_right ?_))
        rcases hended with rfl | rfl <;> exact Outcome.noConfusion
      · exact ihothers htask
  | unwind hbody hne =>
      exact absurd ((hP.goes_on _ _ _ _ _ _ htask _ _ _ hbody).2 _ rfl) hne

/-- The search from a goal finds what is secured for one of its bodies. -/
theorem Visits.mem_found_of_secures (hP : Secures rows settings final P)
    (h : Visits rows settings goal bodies harvest harvest') (hbody : body ∈ bodies)
    (htask : P (.read [⟨body, [goal]⟩] []))
    (hwindow : settings.min ≤ final.length ∧ final.length ≤ settings.max) :
    settings.order.chain final ∈ harvest'.found := by
  induction h with
  | nil => exact absurd hbody List.not_mem_nil
  | cons hrun hothers ih =>
      rcases List.mem_cons.mp hbody with rfl | hbody
      · have hfound := hrun.mem_found_of_secures hP htask hwindow
        refine hothers.mem_found (mem_found_deliver.mpr (hfound.imp_right fun h => ?_))
        exact ⟨final, h, hwindow, rfl⟩
      · exact ih hbody

end FormalLanguages.Generation
