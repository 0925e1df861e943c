import FormalLanguages.Proofs.Generation.Runs

/-!
The lower end of the window. A chain below the minimum is passed over just like one that was found
before, so the search does the same whatever the minimum is: two searches that differ in it run side
by side through the same tasks to the same outcomes, and one of them finds the long enough chains of
the other.
-/

namespace FormalLanguages.Generation

/-- The window without a minimum. -/
def Settings.fromZero (settings : Settings) : Settings :=
  { settings with min := 0, min_le_max := Nat.zero_le settings.max }

/-- The first harvest is what the second one has of chains that are long enough, in its order. -/
def Sifts (min : Nat) (harvest other : Harvest) : Prop :=
  harvest.found = other.found.filter (min ≤ ·.length)

variable {rows : Rows} {settings : Settings} {task : Task} {goal : String} {bodies : List Body}
variable {harvest harvest' other other' : Harvest} {outcome outcome' : Outcome}

theorem length_chain (order : Order) (letters : List Char) :
    (order.chain letters).length = letters.length := by
  cases order <;> simp [Order.chain]

/-! ### Two searches side by side -/

theorem Sifts.offer (h : Sifts settings.min harvest other) (letters : List Char) :
    Sifts settings.min (settings.offer letters harvest)
      (settings.fromZero.offer letters other) := by
  have hlength := length_chain settings.order letters
  by_cases hmax : letters.length ≤ settings.max
  · have hother : settings.fromZero.offer letters other =
        other.add (settings.order.chain letters) := if_pos ⟨Nat.zero_le _, hmax⟩
    rw [Sifts, hother, Harvest.found_add]
    by_cases hmin : settings.min ≤ letters.length
    · -- the chain is new to both harvests or to none
      rw [Settings.offer, if_pos ⟨hmin, hmax⟩, Harvest.found_add, h]
      by_cases hold : settings.order.chain letters ∈ other.found <;> simp [hold, hlength, hmin]
    · rw [Settings.offer, if_neg fun hwindow => hmin hwindow.1, h]
      by_cases hold : settings.order.chain letters ∈ other.found <;> simp [hold, hlength, hmin]
  · have hharvest : settings.offer letters harvest = harvest := if_neg fun h => hmax h.2
    have hother : settings.fromZero.offer letters other = other := if_neg fun h => hmax h.2
    rw [hharvest, hother]
    exact h

/-- What the search does after a body of a name, as the end of that body has it. -/
def GoesOn (rows : Rows) (settings : Settings) (others : Task) (name : String) (harvest : Harvest)
    (ended : Outcome) (harvest' : Harvest) (outcome : Outcome) : Prop :=
  match ended with
  | .chain letters =>
    if letters.length ≤ settings.max then
      Runs rows settings others (settings.offer letters harvest) harvest' outcome
    else harvest' = harvest ∧ outcome = .finished
  | .finished => Runs rows settings others harvest harvest' outcome
  | .loopAt looped =>
    if looped = name then Runs rows settings others harvest harvest' outcome
    else harvest' = harvest ∧ outcome = .loopAt looped
  | .stopped => False

theorem Runs.exists_goesOn {name : String} {path : List String} {frames : List Frame}
    {letters : List Char} {body : Body} {others : List Body}
    (h : Runs rows settings (.expand name path frames letters (body :: others))
      harvest harvest' outcome) :
    ∃ between ended, Runs rows settings (.read (⟨body, name :: path⟩ :: frames) letters)
      harvest between ended ∧
        GoesOn rows settings (.expand name path frames letters others) name between ended
          harvest' outcome := by
  cases h with
  | tooLong hbody hlong =>
      exact ⟨_, _, hbody, (if_neg (Nat.not_le_of_lt hlong)).mpr ⟨rfl, rfl⟩⟩
  | offered hbody hshort hothers => exact ⟨_, _, hbody, (if_pos hshort).mpr hothers⟩
  | next hbody hended hothers =>
      refine ⟨_, _, hbody, ?_⟩
      rcases hended with rfl | rfl
      · exact hothers
      · exact (if_pos rfl).mpr hothers
  | unwind hbody hne => exact ⟨_, _, hbody, (if_neg hne).mpr ⟨rfl, rfl⟩⟩

/-- The searches go through the same branches, which end alike. -/
theorem Runs.sifts (h : Runs rows settings task harvest harvest' outcome)
    (h' : Runs rows settings.fromZero task other other' outcome')
    (hsifts : Sifts settings.min harvest other) :
    outcome = outcome' ∧ Sifts settings.min harvest' other' := by
  induction h generalizing other other' outcome' with
  | done =>
      cases h'
      exact ⟨rfl, hsifts⟩
  | leave _ ih =>
      cases h' with
      | leave h' => exact ih h' hsifts
  | letter _ ih =>
      cases h' with
      | letter h' => exact ih h' hsifts
  | enter hcount _ ih =>
      cases h' with
      | enter _ h' => exact ih h' hsifts
      | recur _ hcount' => exact absurd hcount (Nat.not_le_of_lt hcount')
  | recur _ hcount =>
      cases h' with
      | enter hcount' => exact absurd hcount' (Nat.not_le_of_lt hcount)
      | recur => exact ⟨rfl, hsifts⟩
  | exhausted =>
      cases h'
      exact ⟨rfl, hsifts⟩
  -- the body ends alike in both searches, and this decides how they go on
  | tooLong _ hlong ih =>
      obtain ⟨between, ended, hbody', hgoes⟩ := h'.exists_goesOn
      obtain ⟨rfl, hbetween⟩ := ih hbody' hsifts
      obtain ⟨rfl, rfl⟩ := (if_neg (Nat.not_le_of_lt hlong)).mp hgoes
      exact ⟨rfl, hbetween⟩
  | offered _ hshort _ ihbody ihothers =>
      obtain ⟨between, ended, hbody', hgoes⟩ := h'.exists_goesOn
      obtain ⟨rfl, hbetween⟩ := ihbody hbody' hsifts
      exact ihothers ((if_pos hshort).mp hgoes) (hbetween.offer _)
  | next _ hended _ ihbody ihothers =>
      obtain ⟨between, ended, hbody', hgoes⟩ := h'.exists_goesOn
      obtain ⟨rfl, hbetween⟩ := ihbody hbody' hsifts
      rcases hended with rfl | rfl
      · exact ihothers hgoes hbetween
      · exact ihothers ((if_pos rfl).mp hgoes) hbetween
  | unwind _ hne ih =>
      obtain ⟨between, ended, hbody', hgoes⟩ := h'.exists_goesOn
      obtain ⟨rfl, hbetween⟩ := ih hbody' hsifts
      obtain ⟨rfl, rfl⟩ := (if_neg hne).mp hgoes
      exact ⟨rfl, hbetween⟩

/-! ### The generator -/

theorem Visits.sifts (h : Visits rows settings goal bodies harvest harvest')
    (h' : Visits rows settings.fromZero goal bodies other other')
    (hsifts : Sifts settings.min harvest other) : Sifts settings.min harvest' other' := by
  induction h generalizing other other' with
  | nil =>
      cases h'
      exact hsifts
  | @cons _ _ _ _ _ outcome hrun _ ih =>
      cases h' with
      | cons hrun' hothers' =>
          obtain ⟨rfl, hsifts⟩ := hrun.sifts hrun' hsifts
          apply ih hothers'
          cases outcome with
          | chain letters => exact hsifts.offer letters
          | finished => exact hsifts
          | loopAt name => exact hsifts
          | stopped => exact hsifts

/-- The minimum of a window does no more than to drop the shorter chains from what is found. -/
theorem generate_filters_minimum (rules : RuleTable) (goal : String) (settings : Settings) :
    ∃ chains, generate rules goal settings.fromZero none = .completed chains ∧
      generate rules goal settings none =
        .completed (chains.filter (settings.min ≤ ·.length)) := by
  obtain ⟨harvest, hgenerate, hvisits⟩ := exists_generate rules goal settings
  obtain ⟨other, hgenerate', hvisits'⟩ := exists_generate rules goal settings.fromZero
  have hfound : harvest.found = other.found.filter (settings.min ≤ ·.length) :=
    hvisits.sifts hvisits' rfl
  refine ⟨other.chains, hgenerate', ?_⟩
  rw [hgenerate, Harvest.chains, Harvest.chains, hfound, List.filter_reverse]

end FormalLanguages.Generation
