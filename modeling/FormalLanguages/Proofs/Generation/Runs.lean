import FormalLanguages.Generation.Generator

/-!
Searches that nobody stops. What such a search does is the least relation that its cases allow, so a
property of all searches is proved by one case for each way in which a branch can go on.
-/

namespace FormalLanguages.Generation

/-- Where a search stands; the letters read are held last one first. -/
inductive Task where
  /-- Frames are to be read. -/
  | read (frames : List Frame) (letters : List Char)
  /-- Bodies of a name are to be tried in front of the frames that wait. -/
  | expand (name : String) (path : List String) (frames : List Frame) (letters : List Char)
      (bodies : List Body)

/-- From the task and the harvest so far the search comes to a harvest and an outcome. -/
inductive Runs (rows : Rows) (settings : Settings) :
    Task → Harvest → Harvest → Outcome → Prop where
  | done (letters : List Char) (harvest : Harvest) :
      Runs rows settings (.read [] letters) harvest harvest (.chain letters)
  | leave {path : List String} {frames : List Frame} {letters : List Char}
      {harvest harvest' : Harvest} {outcome : Outcome}
      (hframes : Runs rows settings (.read frames letters) harvest harvest' outcome) :
      Runs rows settings (.read (⟨[], path⟩ :: frames) letters) harvest harvest' outcome
  | letter {c : Char} {symbols : Body} {path : List String} {frames : List Frame}
      {letters : List Char} {harvest harvest' : Harvest} {outcome : Outcome}
      (hframes : Runs rows settings (.read (⟨symbols, path⟩ :: frames) (c :: letters))
        harvest harvest' outcome) :
      Runs rows settings (.read (⟨.terminal c :: symbols, path⟩ :: frames) letters)
        harvest harvest' outcome
  | enter {name : String} {symbols : Body} {path : List String} {frames : List Frame}
      {letters : List Char} {harvest harvest' : Harvest} {outcome : Outcome}
      (hcount : path.count name ≤ settings.max)
      (hbodies : Runs rows settings
        (.expand name path (⟨symbols, path⟩ :: frames) letters (rows.bodies name))
        harvest harvest' outcome) :
      Runs rows settings (.read (⟨.nonTerminal name :: symbols, path⟩ :: frames) letters)
        harvest harvest' outcome
  | recur {name : String} {symbols : Body} {path : List String} {frames : List Frame}
      {letters : List Char} (harvest : Harvest) (hcount : settings.max < path.count name) :
      Runs rows settings (.read (⟨.nonTerminal name :: symbols, path⟩ :: frames) letters)
        harvest harvest (.loopAt name)
  | exhausted {name : String} {path : List String} {frames : List Frame} {letters : List Char}
      {harvest : Harvest} :
      Runs rows settings (.expand name path frames letters []) harvest harvest .finished
  | tooLong {name : String} {path : List String} {frames : List Frame}
      {letters letters' : List Char} {body : Body} {others : List Body}
      {harvest harvest' : Harvest}
      (hbody : Runs rows settings (.read (⟨body, name :: path⟩ :: frames) letters)
        harvest harvest' (.chain letters'))
      (hlong : settings.max < letters'.length) :
      Runs rows settings (.expand name path frames letters (body :: others))
        harvest harvest' .finished
  | offered {name : String} {path : List String} {frames : List Frame}
      {letters letters' : List Char} {body : Body} {others : List Body}
      {harvest harvest' harvest'' : Harvest} {outcome : Outcome}
      (hbody : Runs rows settings (.read (⟨body, name :: path⟩ :: frames) letters)
        harvest harvest' (.chain letters'))
      (hshort : letters'.length ≤ settings.max)
      (hothers : Runs rows settings (.expand name path frames letters others)
        (settings.offer letters' harvest') harvest'' outcome) :
      Runs rows settings (.expand name path frames letters (body :: others))
        harvest harvest'' outcome
  /-- The branch is used up, or a loop at this very name ends here. -/
  | next {name : String} {path : List String} {frames : List Frame} {letters : List Char}
      {body : Body} {others : List Body} {harvest harvest' harvest'' : Harvest}
      {ended outcome : Outcome}
      (hbody : Runs rows settings (.read (⟨body, name :: path⟩ :: frames) letters)
        harvest harvest' ended)
      (hended : ended = .finished ∨ ended = .loopAt name)
      (hothers : Runs rows settings (.expand name path frames letters others)
        harvest' harvest'' outcome) :
      Runs rows settings (.expand name path frames letters (body :: others))
        harvest harvest'' outcome
  | unwind {name looped : String} {path : List String} {frames : List Frame}
      {letters : List Char} {body : Body} {others : List Body} {harvest harvest' : Harvest}
      (hbody : Runs rows settings (.read (⟨body, name :: path⟩ :: frames) letters)
        harvest harvest' (.loopAt looped))
      (hne : looped ≠ name) :
      Runs rows settings (.expand name path frames letters (body :: others))
        harvest harvest' (.loopAt looped)

/-! ### The harvest of one offer -/

theorem Harvest.spend_eq {harvest : Harvest} (h : harvest.patience = none) :
    harvest.spend = some harvest := by
  simp only [Harvest.spend, h]

namespace Settings

variable {settings : Settings}

@[simp] theorem offer_patience (settings : Settings) (letters : List Char) (harvest : Harvest) :
    (settings.offer letters harvest).patience = harvest.patience := by
  unfold offer Harvest.add
  split
  · split <;> rfl
  · rfl

/-- The chain of the letters becomes part of the harvest if it is in the window. -/
theorem mem_found_offer {letters : List Char} {harvest : Harvest} {chain : String} :
    chain ∈ (settings.offer letters harvest).found ↔
      chain ∈ harvest.found ∨
        (settings.min ≤ letters.length ∧ letters.length ≤ settings.max) ∧
          chain = settings.order.chain letters := by
  unfold offer
  split
  · rename_i hwindow
    rw [Harvest.found_add]
    split
    · rename_i hold
      constructor
      · exact .inl
      · rintro (h | ⟨-, rfl⟩)
        · exact h
        · exact hold
    · simp [hwindow, or_comm]
  · rename_i hwindow
    simp [hwindow]

theorem nodup_found_offer {letters : List Char} {harvest : Harvest} (h : harvest.found.Nodup) :
    (settings.offer letters harvest).found.Nodup := by
  unfold offer
  split
  · rw [Harvest.found_add]
    split
    · exact h
    · rename_i hnew
      exact List.nodup_cons.mpr ⟨hnew, h⟩
  · exact h

end Settings

variable {rows : Rows} {settings : Settings}

/-! ### What the search does -/

theorem Runs.ne_stopped {task : Task} {harvest harvest' : Harvest} {outcome : Outcome}
    (h : Runs rows settings task harvest harvest' outcome) : outcome ≠ .stopped := by
  induction h with
  | done => exact Outcome.noConfusion
  | leave _ ih => exact ih
  | letter _ ih => exact ih
  | enter _ _ ih => exact ih
  | recur => exact Outcome.noConfusion
  | exhausted => exact Outcome.noConfusion
  | tooLong => exact Outcome.noConfusion
  | offered _ _ _ _ ih => exact ih
  | next _ _ _ _ ih => exact ih
  | unwind => exact Outcome.noConfusion

/-- What the search does is a run that leaves the patience unlimited. -/
def Settles (rows : Rows) (settings : Settings) (task : Task) (harvest : Harvest)
    (answer : Harvest × Outcome) : Prop :=
  harvest.patience = none →
    answer.1.patience = none ∧ Runs rows settings task harvest answer.1 answer.2

theorem settles_search (rows : Rows) (settings : Settings) :
    (∀ frames letters harvest, Settles rows settings (.read frames letters) harvest
      (derive rows settings frames letters harvest)) ∧
    ∀ name path frames letters bodies harvest,
      Settles rows settings (.expand name path frames letters bodies) harvest
        (tryBodies rows settings name path frames letters bodies harvest) := by
  -- unlimited patience is never spent, so each body finds the harvest as it was
  have hspent {harvest harvest' : Harvest} (hpatience : harvest.patience = none)
      (hspend : harvest.spend = some harvest') : harvest' = harvest :=
    Option.some.inj (hspend.symm.trans (Harvest.spend_eq hpatience))
  refine derive.mutual_induct rows settings
    (fun frames letters harvest => Settles rows settings (.read frames letters) harvest
      (derive rows settings frames letters harvest))
    (fun name path frames letters bodies harvest =>
      Settles rows settings (.expand name path frames letters bodies) harvest
        (tryBodies rows settings name path frames letters bodies harvest))
    ?done ?leave ?letter ?enter ?recur ?exhausted ?stop ?tooLong ?offered ?finished ?caught ?unwind
    ?stopped
  case done =>
    intro letters harvest hpatience
    rw [derive]
    exact ⟨hpatience, .done letters harvest⟩
  case leave =>
    intro letters harvest path frames ih hpatience
    rw [derive]
    exact ⟨(ih hpatience).1, .leave (ih hpatience).2⟩
  case letter =>
    intro letters harvest c symbols path frames ih hpatience
    rw [derive]
    exact ⟨(ih hpatience).1, .letter (ih hpatience).2⟩
  case enter =>
    intro letters harvest name symbols path frames hcount ih hpatience
    rw [derive, if_pos hcount]
    exact ⟨(ih hpatience).1, .enter hcount (ih hpatience).2⟩
  case recur =>
    intro letters harvest name symbols path frames hcount hpatience
    rw [derive, if_neg hcount]
    exact ⟨hpatience, .recur harvest (Nat.lt_of_not_le hcount)⟩
  case exhausted =>
    intro name path frames letters harvest hpatience
    rw [tryBodies]
    exact ⟨hpatience, .exhausted⟩
  case stop =>
    intro name path frames letters harvest body others hspend hpatience
    rw [Harvest.spend_eq hpatience] at hspend
    exact absurd hspend (Option.some_ne_none _)
  case tooLong =>
    intro name path frames letters harvest body others spent hspend harvest' letters' hderive hlong
      ih hpatience
    obtain rfl := hspent hpatience hspend
    rw [hderive] at ih
    rw [tryBodies, hspend]
    simp only [hderive, if_pos hlong]
    exact ⟨(ih hpatience).1, .tooLong (ih hpatience).2 hlong⟩
  case offered =>
    intro name path frames letters harvest body others spent hspend harvest' letters' hderive hlong
      ih ihothers hpatience
    obtain rfl := hspent hpatience hspend
    rw [hderive] at ih
    rw [tryBodies, hspend]
    simp only [hderive, if_neg hlong]
    obtain ⟨hpatience', hbody⟩ := ih hpatience
    obtain ⟨hpatience'', hothers⟩ := ihothers (by simpa using hpatience')
    exact ⟨hpatience'', .offered hbody (Nat.le_of_not_lt hlong) hothers⟩
  case finished =>
    intro name path frames letters harvest body others spent hspend harvest' hderive ih ihothers
      hpatience
    obtain rfl := hspent hpatience hspend
    rw [hderive] at ih
    rw [tryBodies, hspend]
    simp only [hderive]
    obtain ⟨hpatience', hbody⟩ := ih hpatience
    obtain ⟨hpatience'', hothers⟩ := ihothers hpatience'
    exact ⟨hpatience'', .next hbody (.inl rfl) hothers⟩
  case caught =>
    intro path frames letters harvest body others spent hspend harvest' name hderive ih ihothers
      hpatience
    obtain rfl := hspent hpatience hspend
    rw [hderive] at ih
    rw [tryBodies, hspend]
    simp only [hderive, if_pos]
    obtain ⟨hpatience', hbody⟩ := ih hpatience
    obtain ⟨hpatience'', hothers⟩ := ihothers hpatience'
    exact ⟨hpatience'', .next hbody (.inr rfl) hothers⟩
  case unwind =>
    intro name path frames letters harvest body others spent hspend harvest' looped hderive hne ih
      hpatience
    obtain rfl := hspent hpatience hspend
    rw [hderive] at ih
    rw [tryBodies, hspend]
    simp only [hderive, if_neg hne]
    exact ⟨(ih hpatience).1, .unwind (ih hpatience).2 hne⟩
  case stopped =>
    intro name path frames letters harvest body others spent hspend harvest' hderive ih hpatience
    obtain rfl := hspent hpatience hspend
    rw [hderive] at ih
    exact absurd rfl (ih hpatience).2.ne_stopped

/-- What the goal adds once a body of it has been tried. -/
def Outcome.deliver (settings : Settings) (outcome : Outcome) (harvest : Harvest) : Harvest :=
  match outcome with
  | .chain letters => settings.offer letters harvest
  | _ => harvest

theorem Outcome.deliver_keeps {P : Harvest → Prop}
    (hoffer : ∀ letters harvest, P harvest → P (settings.offer letters harvest))
    (outcome : Outcome) {harvest : Harvest} (h : P harvest) :
    P (outcome.deliver settings harvest) := by
  cases outcome with
  | chain letters => exact hoffer letters harvest h
  | finished => exact h
  | loopAt name => exact h
  | stopped => exact h

/-- The bodies of the goal are tried one after the other, whatever comes of them. -/
inductive Visits (rows : Rows) (settings : Settings) (goal : String) :
    List Body → Harvest → Harvest → Prop where
  | nil (harvest : Harvest) : Visits rows settings goal [] harvest harvest
  | cons {body : Body} {others : List Body} {harvest harvest' harvest'' : Harvest}
      {outcome : Outcome}
      (hbody : Runs rows settings (.read [⟨body, [goal]⟩] []) harvest harvest' outcome)
      (hothers : Visits rows settings goal others (outcome.deliver settings harvest') harvest'') :
      Visits rows settings goal (body :: others) harvest harvest''

theorem exists_visits (rows : Rows) (settings : Settings) (goal : String) (bodies : List Body)
    (harvest : Harvest) (hpatience : harvest.patience = none) :
    ∃ harvest', search rows settings goal bodies harvest = some harvest' ∧
      Visits rows settings goal bodies harvest harvest' := by
  induction bodies generalizing harvest with
  | nil => exact ⟨harvest, rfl, .nil harvest⟩
  | cons body others ih =>
      have h := (settles_search rows settings).1 [⟨body, [goal]⟩] [] harvest hpatience
      rcases hderive : derive rows settings [⟨body, [goal]⟩] [] harvest with ⟨harvest', outcome⟩
      rw [hderive] at h
      obtain ⟨hpatience', hrun⟩ := h
      have hdelivered : (outcome.deliver settings harvest').patience = none :=
        outcome.deliver_keeps (P := fun harvest => harvest.patience = none)
          (fun letters harvest => (settings.offer_patience letters harvest).trans) hpatience'
      obtain ⟨harvest'', hsearch, hothers⟩ := ih _ hdelivered
      refine ⟨harvest'', ?_, .cons hrun hothers⟩
      simp only [search, Harvest.spend_eq hpatience, hderive]
      cases outcome with
      | chain letters => exact hsearch
      | finished => exact hsearch
      | loopAt name => exact hsearch
      | stopped => exact absurd rfl hrun.ne_stopped

/-- A search that nobody stops completes. -/
theorem exists_generate (rules : RuleTable) (goal : String) (settings : Settings) :
    ∃ harvest, generate rules goal settings none = .completed harvest.chains ∧
      Visits (Rows.ofRules settings.order rules) settings goal
        ((Rows.ofRules settings.order rules).bodies goal) {} harvest := by
  obtain ⟨harvest, hsearch, hvisits⟩ := exists_visits (Rows.ofRules settings.order rules) settings
    goal ((Rows.ofRules settings.order rules).bodies goal) {} rfl
  refine ⟨harvest, ?_, hvisits⟩
  simp only [generate, hsearch]

end FormalLanguages.Generation
