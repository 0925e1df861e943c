import FormalLanguages.Proofs.Generation.Soundness

/-!
Windows that reach further up. The maximum is the limit of the chains as well as of the paths, so a
search with a larger one goes deeper and meets its loops and its chains that are too long elsewhere.
It loses nothing all the same: wherever the search with the smaller maximum comes, no path holds a
name more often than the larger maximum allows, so no loop of the larger search leads out of there.
-/

namespace FormalLanguages.Generation

/-- The second window reaches further up and is the same otherwise. -/
structure Settings.Extends (settings' settings : Settings) : Prop where
  min_eq : settings'.min = settings.min
  order_eq : settings'.order = settings.order
  max_lt : settings.max < settings'.max

/-- The paths of the frames; bodies to be tried are read on the path that ends with their name. -/
def Task.paths : Task → List (List String)
  | .read frames _ => frames.map Frame.path
  | .expand name path frames _ _ => (name :: path) :: frames.map Frame.path

/-- No path of the task holds a name more often than the limit says. -/
def Task.Within (limit : Nat) (task : Task) : Prop :=
  ∀ path ∈ task.paths, ∀ name, path.count name ≤ limit

variable {rows : Rows} {settings settings' : Settings} {task : Task} {limit : Nat}
variable {name goal : String} {symbols body : Body} {path : List String} {frames : List Frame}
variable {letters : List Char} {bodies others : List Body}
variable {harvest harvest' other other' : Harvest} {outcome outcome' : Outcome}

/-! ### Paths with room -/

theorem within_leave (h : (Task.read (⟨[], path⟩ :: frames) letters).Within limit) :
    (Task.read frames letters).Within limit :=
  fun other hother => h other (List.mem_cons_of_mem _ hother)

/-- A name that may be expanded lengthens its path by one occurrence of itself. -/
theorem within_enter
    (h : (Task.read (⟨.nonTerminal name :: symbols, path⟩ :: frames) letters).Within (limit + 1))
    (hcount : path.count name ≤ limit) :
    (Task.expand name path (⟨symbols, path⟩ :: frames) letters bodies).Within (limit + 1) := by
  intro other hother
  rcases List.mem_cons.mp hother with rfl | hother
  · intro waiting
    by_cases hname : name = waiting
    · subst hname
      rw [List.count_cons_self]
      omega
    · rw [List.count_cons_of_ne hname]
      exact h path List.mem_cons_self waiting
  · exact h other hother

/-- A path on which a name waits is the path of a frame, or the beginning of one. -/
theorem Task.Within.count_le (h : task.Within limit) (hwaits : task.Waits path name)
    (looped : String) : path.count looped ≤ limit := by
  have hframe {frames : List Frame} (hin : WaitsIn frames path name) :
      path ∈ frames.map Frame.path := by
    obtain ⟨frame, hmem, rfl, -⟩ := hin
    exact List.mem_map_of_mem hmem
  cases task with
  | read frames letters => exact h path (hframe hwaits) looped
  | expand own ownPath frames letters bodies =>
      rcases hwaits with ⟨rfl, -⟩ | hwaits
      · calc ownPath.count looped ≤ (own :: ownPath).count looped := List.count_le_count_cons
          _ ≤ limit := h _ List.mem_cons_self looped
      · exact h path (List.mem_cons_of_mem _ (hframe hwaits)) looped

/-- No loop leads out of a task whose paths have room. -/
theorem Runs.ne_loopAt (h : Runs rows settings task harvest harvest' outcome)
    (hwithin : task.Within settings.max) (looped : String) : outcome ≠ .loopAt looped := by
  intro hloop
  obtain ⟨path, name, hwaits, hcount⟩ := h.exists_loop hloop
  exact absurd (hwithin.count_le hwaits looped) (Nat.not_le_of_lt hcount)

/-! ### Two searches side by side -/

/-- A task without names ends with its chain, whatever the settings. -/
theorem Runs.outcome_of_spells (h : Runs rows settings task harvest harvest' outcome)
    {final : List Char} (hspells : task.Spells final) : outcome = .chain final := by
  have hnames {name : String} {rest : List Char} {form : Body}
      (hform : .nonTerminal name :: form = rest.map Symbol.terminal) : False := by
    cases rest <;> simp at hform
  induction h with
  | done letters =>
      obtain ⟨rest, hform, rfl⟩ := hspells
      obtain rfl : rest = [] := by simpa using hform
      rfl
  | leave _ ih => exact ih hspells
  | letter _ ih =>
      obtain ⟨rest, hform, rfl⟩ := hspells
      cases rest with
      | nil => simp at hform
      | cons d rest =>
          simp only [form_cons, List.cons_append, List.map_cons, List.cons.injEq,
            Symbol.terminal.injEq] at hform
          obtain ⟨rfl, hform⟩ := hform
          exact ih ⟨rest, hform, by simp⟩
  | enter =>
      obtain ⟨rest, hform, -⟩ := hspells
      exact (hnames hform).elim
  | recur =>
      obtain ⟨rest, hform, -⟩ := hspells
      exact (hnames hform).elim
  | exhausted => exact hspells.elim
  | tooLong => exact hspells.elim
  | offered => exact hspells.elim
  | next => exact hspells.elim
  | unwind => exact hspells.elim

/-- Both searches come to the same chain, if one of them comes to a chain. -/
theorem Runs.chain_of_chain (h : Runs rows settings task harvest harvest' outcome)
    (h' : Runs rows settings' task other other' outcome') {final : List Char}
    (hchain : outcome = .chain final) : outcome' = .chain final :=
  h'.outcome_of_spells (h.spells hchain)

/-- Whatever becomes of a first body, what it has found is kept. -/
theorem Runs.exists_body
    (h : Runs rows settings (.expand name path frames letters (body :: others))
      harvest harvest' outcome) :
    ∃ between ended, Runs rows settings (.read (⟨body, name :: path⟩ :: frames) letters)
      harvest between ended ∧ between.found ⊆ harvest'.found := by
  cases h with
  | tooLong hbody => exact ⟨_, _, hbody, List.Subset.refl _⟩
  | offered hbody _ hothers =>
      refine ⟨_, _, hbody, fun chain hchain => hothers.mem_found ?_⟩
      exact Settings.mem_found_offer.mpr (.inl hchain)
  | next hbody _ hothers => exact ⟨_, _, hbody, fun chain hchain => hothers.mem_found hchain⟩
  | unwind hbody => exact ⟨_, _, hbody, List.Subset.refl _⟩

theorem Settings.Extends.found_offer_subset (h : settings'.Extends settings)
    (hfound : harvest.found ⊆ other.found) :
    (settings.offer letters harvest).found ⊆ (settings'.offer letters other).found := by
  intro chain hchain
  rw [mem_found_offer] at hchain ⊢
  rcases hchain with hold | ⟨hwindow, rfl⟩
  · exact .inl (hfound hold)
  · have hmax := h.max_lt
    rw [h.min_eq, h.order_eq]
    exact .inr ⟨by omega, rfl⟩

/-- From the same task the search with the larger maximum finds at least as much. -/
theorem Runs.found_subset (hext : settings'.Extends settings)
    (h : Runs rows settings task harvest harvest' outcome)
    (h' : Runs rows settings' task other other' outcome')
    (hwithin : task.Within (settings.max + 1)) (hfound : harvest.found ⊆ other.found) :
    harvest'.found ⊆ other'.found := by
  have hmax := hext.max_lt
  induction h generalizing other other' outcome' with
  | done =>
      cases h'
      exact hfound
  | leave _ ih =>
      cases h' with
      | leave h' => exact ih h' (within_leave hwithin) hfound
  | letter _ ih =>
      cases h' with
      | letter h' => exact ih h' hwithin hfound
  | enter hcount _ ih =>
      cases h' with
      | enter _ h' => exact ih h' (within_enter hwithin hcount) hfound
      | recur _ hcount' => omega
  | recur =>
      exact fun chain hchain => h'.mem_found (hfound hchain)
  | exhausted =>
      cases h'
      exact hfound
  | tooLong _ _ ih =>
      obtain ⟨between, ended, hbody, hkept⟩ := h'.exists_body
      exact fun chain hchain => hkept (ih hbody hwithin hfound hchain)
  | unwind _ _ ih =>
      obtain ⟨between, ended, hbody, hkept⟩ := h'.exists_body
      exact fun chain hchain => hkept (ih hbody hwithin hfound hchain)
  | offered hbody hshort _ ihbody ihothers =>
      -- the chain is the same in both searches, and short enough for both
      cases h' with
      | tooLong hbody' hlong =>
          obtain rfl := Outcome.chain.inj (hbody.chain_of_chain hbody' rfl)
          omega
      | offered hbody' _ hothers' =>
          obtain rfl := Outcome.chain.inj (hbody.chain_of_chain hbody' rfl)
          exact ihothers hothers' hwithin
            (hext.found_offer_subset (ihbody hbody' hwithin hfound))
      | next hbody' hended =>
          obtain rfl := hbody.chain_of_chain hbody' rfl
          simp at hended
      | unwind hbody' =>
          exact absurd (hbody.chain_of_chain hbody' rfl) (by simp)
  | next hbody hended _ ihbody ihothers =>
      -- neither a chain nor a loop comes out of the body in the larger search
      cases h' with
      | tooLong hbody' =>
          obtain rfl := hbody'.chain_of_chain hbody rfl
          simp at hended
      | offered hbody' =>
          obtain rfl := hbody'.chain_of_chain hbody rfl
          simp at hended
      | next hbody' _ hothers' =>
          exact ihothers hothers' hwithin (ihbody hbody' hwithin hfound)
      | unwind hbody' =>
          refine absurd rfl (hbody'.ne_loopAt (fun path hpath name => ?_) _)
          exact Nat.le_trans (hwithin path hpath name) hmax

/-! ### The generator -/

theorem Settings.Extends.found_deliver_subset (h : settings'.Extends settings)
    (hchain : ∀ final, outcome = .chain final → outcome' = .chain final)
    (hfound : harvest.found ⊆ other.found) :
    (outcome.deliver settings harvest).found ⊆ (outcome'.deliver settings' other).found := by
  cases outcome with
  | chain final =>
      rw [hchain final rfl]
      exact h.found_offer_subset hfound
  | finished => exact fun chain hold => mem_found_deliver.mpr (.inl (hfound hold))
  | loopAt name => exact fun chain hold => mem_found_deliver.mpr (.inl (hfound hold))
  | stopped => exact fun chain hold => mem_found_deliver.mpr (.inl (hfound hold))

theorem Visits.found_subset (hext : settings'.Extends settings)
    (h : Visits rows settings goal bodies harvest harvest')
    (h' : Visits rows settings' goal bodies other other') (hfound : harvest.found ⊆ other.found) :
    harvest'.found ⊆ other'.found := by
  have hstart (body : Body) : (Task.read [⟨body, [goal]⟩] []).Within (settings.max + 1) := by
    intro path hpath name
    obtain rfl := List.mem_singleton.mp hpath
    calc [goal].count name ≤ [goal].length := List.count_le_length
      _ ≤ settings.max + 1 := Nat.le_add_left ..
  induction h generalizing other other' with
  | nil =>
      cases h'
      exact hfound
  | cons hrun _ ih =>
      cases h' with
      | cons hrun' hothers' =>
          refine ih hothers' (hext.found_deliver_subset ?_ ?_)
          · exact fun final => hrun.chain_of_chain hrun'
          · exact hrun.found_subset hext hrun' (hstart _) hfound

/-- A larger maximum loses no chain, although it moves the loops and the chains that are too long
to other places of the search. -/
theorem generate_subset_of_max_le (rules : RuleTable) (goal : String) (order : Order)
    {min max max' : Nat} (h : min ≤ max) (h' : max ≤ max') :
    ∃ chains chains', generate rules goal ⟨min, max, order, h⟩ none = .completed chains ∧
      generate rules goal ⟨min, max', order, Nat.le_trans h h'⟩ none = .completed chains' ∧
        chains ⊆ chains' := by
  obtain ⟨harvest, hgenerate, hvisits⟩ := exists_generate rules goal ⟨min, max, order, h⟩
  obtain ⟨other, hgenerate', hvisits'⟩ :=
    exists_generate rules goal ⟨min, max', order, Nat.le_trans h h'⟩
  refine ⟨_, _, hgenerate, hgenerate', ?_⟩
  rcases Nat.eq_or_lt_of_le h' with rfl | hlt
  · rw [Progress.completed.inj (hgenerate.symm.trans hgenerate')]
    exact List.Subset.refl _
  · have hext : Settings.Extends ⟨min, max', order, Nat.le_trans h h'⟩ ⟨min, max, order, h⟩ :=
      ⟨rfl, rfl, hlt⟩
    have hfound := Visits.found_subset hext hvisits hvisits' (List.Subset.refl _)
    intro chain hchain
    exact List.mem_reverse.mpr (hfound (List.mem_reverse.mp hchain))

/-- The goal recurs at the left end of its own body, and through `A` without any letter. -/
def leftRecursive : RuleTable :=
  .ofList [Rule.mk "S" [.nonTerminal "A"], ⟨"S", [.nonTerminal "S", .terminal 'a']⟩,
    ⟨"A", [.nonTerminal "S"]⟩, ⟨"A", [.terminal 'b']⟩]

example : generate leftRecursive "S" ⟨1, 3, .leftmost, by decide⟩ none =
    .completed ["b", "ba", "baa"] := by decide +kernel

theorem generate_subset_leftRecursive :
    1 ≤ 1 ∧ 1 ≤ 3 ∧ ∃ chains chains',
      generate leftRecursive "S" ⟨1, 1, .leftmost, by decide⟩ none = .completed chains ∧
        generate leftRecursive "S" ⟨1, 3, .leftmost, by decide⟩ none = .completed chains' ∧
          chains ⊆ chains' :=
  ⟨by decide, by decide,
    generate_subset_of_max_le leftRecursive "S" .leftmost (by decide) (by decide)⟩

end FormalLanguages.Generation
