import FormalLanguages.Proofs.Generation.Orders
import FormalLanguages.Proofs.Generation.Runs
import Mathlib.Data.List.Nodup

/-!
What a search finds. Every task leads to the letters that its symbols stand for, and these are
passed on by every way in which a branch can go on. So a search finds chains of the window that the
goal derives, each of them once. This holds for all rule tables.
-/

namespace FormalLanguages.Generation

/-- The symbols of the frames, which are still to be read. -/
def form (frames : List Frame) : Body :=
  frames.flatMap Frame.symbols

@[simp] theorem form_nil : form [] = [] := rfl

@[simp] theorem form_cons (symbols : Body) (path : List String) (frames : List Frame) :
    form (⟨symbols, path⟩ :: frames) = symbols ++ form frames := rfl

/-! ### Where a task leads -/

/-- Reading can end with these letters, of which the first ones are read. -/
def Task.Leads (I : Interpretation) : Task → List Char → Prop
  | .read frames letters, final =>
      ∃ rest, (form frames).Reads I rest ∧ rest.reverse ++ letters = final
  | .expand _ _ frames letters bodies, final =>
      ∃ body ∈ bodies, ∃ rest, (body ++ form frames).Reads I rest ∧ rest.reverse ++ letters = final

variable {I : Interpretation} {name : String} {symbols body : Body} {path : List String}
variable {frames : List Frame} {letters final : List Char} {others : List Body}

theorem leads_done : (Task.read [] letters).Leads I final ↔ letters = final := by
  simp [Task.Leads, Body.Reads]

theorem leads_leave :
    (Task.read (⟨[], path⟩ :: frames) letters).Leads I final ↔
      (Task.read frames letters).Leads I final := Iff.rfl

theorem leads_letter {c : Char} :
    (Task.read (⟨.terminal c :: symbols, path⟩ :: frames) letters).Leads I final ↔
      (Task.read (⟨symbols, path⟩ :: frames) (c :: letters)).Leads I final := by
  constructor
  · rintro ⟨_, ⟨rest, rfl, hrest⟩, rfl⟩
    exact ⟨rest, hrest, by simp⟩
  · rintro ⟨rest, hrest, rfl⟩
    exact ⟨c :: rest, ⟨rest, rfl, hrest⟩, by simp⟩

/-- A name stands for what its bodies stand for. -/
theorem leads_enter {bodies : List Body}
    (hI : ∀ letters, I name letters ↔ ∃ body ∈ bodies, body.Reads I letters) :
    (Task.read (⟨.nonTerminal name :: symbols, path⟩ :: frames) letters).Leads I final ↔
      (Task.expand name path (⟨symbols, path⟩ :: frames) letters bodies).Leads I final := by
  constructor
  · rintro ⟨_, ⟨first, rest, rfl, hfirst, hrest⟩, rfl⟩
    obtain ⟨body, hbody, hreads⟩ := (hI first).mp hfirst
    exact ⟨body, hbody, first ++ rest, hreads.append hrest, rfl⟩
  · rintro ⟨body, hbody, _, hreads, rfl⟩
    obtain ⟨first, rest, rfl, hfirst, hrest⟩ := Body.Reads.append_iff.mp hreads
    exact ⟨first ++ rest, ⟨first, rest, rfl, (hI first).mpr ⟨body, hbody, hfirst⟩, hrest⟩, rfl⟩

theorem not_leads_exhausted : ¬ (Task.expand name path frames letters []).Leads I final := by
  rintro ⟨body, hbody, -⟩
  exact absurd hbody List.not_mem_nil

theorem leads_bodies :
    (Task.expand name path frames letters (body :: others)).Leads I final ↔
      (Task.read (⟨body, name :: path⟩ :: frames) letters).Leads I final ∨
        (Task.expand name path frames letters others).Leads I final := by
  simp only [Task.Leads, form_cons, List.mem_cons, or_and_right, exists_or, exists_eq_left]

/-! ### The outcome of a run -/

variable {rows : Rows} {settings : Settings} {task : Task} {harvest harvest' : Harvest}
variable {outcome : Outcome}

/-- The letters are read already, or terminals that are still to be read. -/
def Task.Spells : Task → List Char → Prop
  | .read frames letters, final =>
      ∃ rest : List Char, form frames = rest.map .terminal ∧ rest.reverse ++ letters = final
  | .expand .., _ => False

/-- A chain comes from a branch that had no name left. -/
theorem Runs.spells (h : Runs rows settings task harvest harvest' outcome)
    (hchain : outcome = .chain final) : task.Spells final := by
  induction h with
  | done letters => exact ⟨[], rfl, Outcome.chain.inj hchain⟩
  | leave _ ih => exact ih hchain
  | @letter c _ _ _ _ _ _ _ _ ih =>
      obtain ⟨rest, hform, hfinal⟩ := ih hchain
      refine ⟨c :: rest, ?_, by simpa using hfinal⟩
      rw [form_cons] at hform ⊢
      rw [List.cons_append, hform, List.map_cons]
  | enter _ _ ih => exact (ih hchain).elim
  | recur => exact Outcome.noConfusion hchain
  | exhausted => exact Outcome.noConfusion hchain
  | tooLong => exact Outcome.noConfusion hchain
  | offered _ _ _ _ ih => exact ih hchain
  | next _ _ _ _ ih => exact ih hchain
  | unwind => exact Outcome.noConfusion hchain

theorem Task.Spells.leads (h : task.Spells final) : task.Leads I final := by
  cases task with
  | read frames letters =>
      obtain ⟨rest, hform, hfinal⟩ := h
      refine ⟨rest, ?_, hfinal⟩
      rw [hform]
      exact .terminals rest
  | expand => exact h.elim

/-- The name waits in one of the frames to be expanded on the path of this frame. -/
def WaitsIn (frames : List Frame) (path : List String) (name : String) : Prop :=
  ∃ frame ∈ frames, frame.path = path ∧ .nonTerminal name ∈ frame.symbols

/-- The name is expanded on the path, or waits to be. -/
def Task.Waits : Task → List String → String → Prop
  | .read frames _, path, name => WaitsIn frames path name
  | .expand own ownPath frames _ _, path, name =>
      ownPath = path ∧ own = name ∨ WaitsIn frames path name

theorem waitsIn_cons {other : List String} {waiting : String} :
    WaitsIn (⟨symbols, path⟩ :: frames) other waiting ↔
      path = other ∧ .nonTerminal waiting ∈ symbols ∨ WaitsIn frames other waiting := by
  simp [WaitsIn]

theorem waitsIn_of_tail {symbol : Symbol} {other : List String} {waiting : String}
    (h : WaitsIn (⟨symbols, path⟩ :: frames) other waiting) :
    WaitsIn (⟨symbol :: symbols, path⟩ :: frames) other waiting :=
  waitsIn_cons.mpr ((waitsIn_cons.mp h).imp_left fun h => ⟨h.1, List.mem_cons_of_mem _ h.2⟩)

theorem waits_enter {bodies : List Body} {other : List String} {waiting : String}
    (h : (Task.expand name path (⟨symbols, path⟩ :: frames) letters bodies).Waits other waiting) :
    (Task.read (⟨.nonTerminal name :: symbols, path⟩ :: frames) letters).Waits other waiting := by
  rcases h with ⟨hpath, rfl⟩ | h
  · exact waitsIn_cons.mpr (.inl ⟨hpath, List.mem_cons_self⟩)
  · exact waitsIn_of_tail h

/-- A loop that ends a whole task is due to the path of some name that waits in it. -/
theorem Runs.exists_loop (h : Runs rows settings task harvest harvest' outcome) {looped : String}
    (hloop : outcome = .loopAt looped) :
    ∃ path name, task.Waits path name ∧ settings.max < path.count looped := by
  induction h with
  | done => exact Outcome.noConfusion hloop
  | leave _ ih =>
      obtain ⟨path, name, hwaits, hcount⟩ := ih hloop
      exact ⟨path, name, waitsIn_cons.mpr (.inr hwaits), hcount⟩
  | letter _ ih =>
      obtain ⟨path, name, hwaits, hcount⟩ := ih hloop
      exact ⟨path, name, waitsIn_of_tail hwaits, hcount⟩
  | enter _ _ ih =>
      obtain ⟨path, name, hwaits, hcount⟩ := ih hloop
      exact ⟨path, name, waits_enter hwaits, hcount⟩
  | recur _ hcount =>
      obtain rfl := Outcome.loopAt.inj hloop
      exact ⟨_, _, waitsIn_cons.mpr (.inl ⟨rfl, List.mem_cons_self⟩), hcount⟩
  | exhausted => exact Outcome.noConfusion hloop
  | tooLong => exact Outcome.noConfusion hloop
  | offered _ _ _ _ ih => exact ih hloop
  | next _ _ _ _ ih => exact ih hloop
  | unwind _ hne ih =>
      obtain rfl := Outcome.loopAt.inj hloop
      obtain ⟨path, name, hwaits, hcount⟩ := ih rfl
      rcases waitsIn_cons.mp hwaits with ⟨rfl, -⟩ | hwaits
      · -- the path of the body is longer by another name than the one that recurs
        rw [List.count_cons_of_ne hne.symm] at hcount
        exact ⟨_, _, .inl ⟨rfl, rfl⟩, hcount⟩
      · exact ⟨path, name, .inr hwaits, hcount⟩

/-! ### The harvest of a run -/

/-- What every offer keeps is kept by a whole run. -/
theorem Runs.keeps {P : Harvest → Prop}
    (hoffer : ∀ letters harvest, P harvest → P (settings.offer letters harvest))
    (h : Runs rows settings task harvest harvest' outcome) (hstart : P harvest) : P harvest' := by
  induction h with
  | done => exact hstart
  | leave _ ih => exact ih hstart
  | letter _ ih => exact ih hstart
  | enter _ _ ih => exact ih hstart
  | recur => exact hstart
  | exhausted => exact hstart
  | tooLong _ _ ih => exact ih hstart
  | offered _ _ _ ihbody ihothers => exact ihothers (hoffer _ _ (ihbody hstart))
  | next _ _ _ ihbody ihothers => exact ihothers (ihbody hstart)
  | unwind _ _ ih => exact ih hstart

theorem Runs.mem_found (h : Runs rows settings task harvest harvest' outcome) {chain : String}
    (hchain : chain ∈ harvest.found) : chain ∈ harvest'.found :=
  h.keeps (P := fun harvest => chain ∈ harvest.found)
    (fun _ _ hold => Settings.mem_found_offer.mpr (.inl hold)) hchain

/-- The chain has a length that is wanted, and the task leads to its letters. -/
def Task.Offers (I : Interpretation) (settings : Settings) (task : Task) (chain : String) : Prop :=
  ∃ final, task.Leads I final ∧ (settings.min ≤ final.length ∧ final.length ≤ settings.max) ∧
    chain = settings.order.chain final

theorem Task.Offers.imp {task' : Task} {chain : String} (h : task.Offers I settings chain)
    (himp : ∀ final, task.Leads I final → task'.Leads I final) : task'.Offers I settings chain := by
  obtain ⟨final, hleads, hrest⟩ := h
  exact ⟨final, himp final hleads, hrest⟩

theorem offers_body {chain : String}
    (h : (Task.read (⟨body, name :: path⟩ :: frames) letters).Offers I settings chain) :
    (Task.expand name path frames letters (body :: others)).Offers I settings chain :=
  h.imp fun _ hleads => leads_bodies.mpr (.inl hleads)

theorem offers_others {chain : String}
    (h : (Task.expand name path frames letters others).Offers I settings chain) :
    (Task.expand name path frames letters (body :: others)).Offers I settings chain :=
  h.imp fun _ hleads => leads_bodies.mpr (.inr hleads)

/-- The interpretation satisfies the equation of every name. -/
def Solves (I : Interpretation) (rows : Rows) : Prop :=
  ∀ name letters, I name letters ↔ ∃ body ∈ rows.bodies name, body.Reads I letters

theorem solves_ofRules (order : Order) (rules : RuleTable) :
    Solves (order.derives rules) (Rows.ofRules order rules) :=
  fun _ _ => Rows.derives_iff

/-- A run finds nothing but chains that its task offers. -/
theorem Runs.sound (hI : Solves I rows) (h : Runs rows settings task harvest harvest' outcome)
    {chain : String} (hchain : chain ∈ harvest'.found) :
    chain ∈ harvest.found ∨ task.Offers I settings chain := by
  induction h with
  | done => exact .inl hchain
  | leave _ ih => exact (ih hchain).imp_right (·.imp fun _ => leads_leave.mpr)
  | letter _ ih => exact (ih hchain).imp_right (·.imp fun _ => leads_letter.mpr)
  | enter _ _ ih => exact (ih hchain).imp_right (·.imp fun _ => (leads_enter (hI _)).mpr)
  | recur => exact .inl hchain
  | exhausted => exact .inl hchain
  | tooLong _ _ ih => exact (ih hchain).imp_right offers_body
  | offered hbody _ _ ihbody ihothers =>
      rcases ihothers hchain with hold | hoffers
      · rcases Settings.mem_found_offer.mp hold with hold | ⟨hwindow, rfl⟩
        · exact (ihbody hold).imp_right offers_body
        · -- the chain on offer is what was left to read, which had no name any more
          exact .inr (offers_body ⟨_, (hbody.spells rfl).leads, hwindow, rfl⟩)
      · exact .inr (offers_others hoffers)
  | next _ _ _ ihbody ihothers =>
      rcases ihothers hchain with hold | hoffers
      · exact (ihbody hold).imp_right offers_body
      · exact .inr (offers_others hoffers)
  | unwind _ _ ih => exact (ih hchain).imp_right offers_body

/-! ### The whole search -/

theorem mem_found_deliver {chain : String} :
    chain ∈ (outcome.deliver settings harvest).found ↔
      chain ∈ harvest.found ∨ ∃ letters, outcome = .chain letters ∧
        (settings.min ≤ letters.length ∧ letters.length ≤ settings.max) ∧
          chain = settings.order.chain letters := by
  cases outcome with
  | chain letters => simp [Outcome.deliver, Settings.mem_found_offer]
  | finished => simp [Outcome.deliver]
  | loopAt name => simp [Outcome.deliver]
  | stopped => simp [Outcome.deliver]

variable {goal : String} {bodies : List Body}

theorem Visits.keeps {P : Harvest → Prop}
    (hoffer : ∀ letters harvest, P harvest → P (settings.offer letters harvest))
    (h : Visits rows settings goal bodies harvest harvest') (hstart : P harvest) : P harvest' := by
  induction h with
  | nil => exact hstart
  | @cons _ _ _ _ _ outcome hbody _ ih =>
      exact ih (outcome.deliver_keeps hoffer (hbody.keeps hoffer hstart))

theorem Visits.mem_found (h : Visits rows settings goal bodies harvest harvest') {chain : String}
    (hchain : chain ∈ harvest.found) : chain ∈ harvest'.found :=
  h.keeps (P := fun harvest => chain ∈ harvest.found)
    (fun _ _ hold => Settings.mem_found_offer.mpr (.inl hold)) hchain

theorem Visits.sound (hI : Solves I rows) (h : Visits rows settings goal bodies harvest harvest')
    {chain : String} (hchain : chain ∈ harvest'.found) :
    chain ∈ harvest.found ∨
      ∃ body ∈ bodies, (Task.read [⟨body, [goal]⟩] []).Offers I settings chain := by
  induction h with
  | nil => exact .inl hchain
  | @cons body others _ _ _ _ hbody _ ih =>
      rcases ih hchain with hold | ⟨other, hother, hoffers⟩
      · rcases mem_found_deliver.mp hold with hold | ⟨letters, houtcome, hwindow, hletters⟩
        · exact (hbody.sound hI hold).imp_right fun h => ⟨body, List.mem_cons_self, h⟩
        · have hleads := (hbody.spells houtcome).leads (I := I)
          exact .inr ⟨body, List.mem_cons_self, letters, hleads, hwindow, hletters⟩
      · exact .inr ⟨other, List.mem_cons_of_mem _ hother, hoffers⟩

/-- What the bodies of a goal offer, in terms of what it derives. -/
theorem exists_offers_iff {rules : RuleTable} {chain : List Char} :
    (∃ body ∈ (Rows.ofRules settings.order rules).bodies goal,
      (Task.read [⟨body, [goal]⟩] []).Offers (settings.order.derives rules) settings
        (String.ofList chain)) ↔
      rules.Derives goal chain ∧ settings.min ≤ chain.length ∧ chain.length ≤ settings.max := by
  have htext : rules.Derives goal chain ↔
      settings.order.derives rules goal (settings.order.text chain) := by
    rw [Order.derives, Order.text_text]
  rw [htext, Rows.derives_iff]
  simp only [Task.Offers, Task.Leads, form_cons, form_nil, List.append_nil]
  constructor
  · rintro ⟨body, hbody, _, ⟨rest, hrest, rfl⟩, hwindow, heq⟩
    rw [Order.chain_reverse] at heq
    obtain rfl := String.ofList_injective heq
    rw [Order.text_text]
    simp only [List.length_reverse] at hwindow
    exact ⟨⟨body, hbody, hrest⟩, by simpa using hwindow⟩
  · rintro ⟨⟨body, hbody, hrest⟩, hwindow⟩
    refine ⟨body, hbody, _, ⟨_, hrest, rfl⟩, by simpa using hwindow, ?_⟩
    rw [Order.chain_reverse, Order.text_text]

theorem Visits.nodup_chains (h : Visits rows settings goal bodies {} harvest) :
    harvest.chains.Nodup := by
  have hfound := h.keeps (P := fun harvest => harvest.found.Nodup)
    (fun _ _ => Settings.nodup_found_offer) List.nodup_nil
  exact List.nodup_reverse.mpr hfound

/-- Whatever the table, the chains found are chains of the window that the goal derives. -/
theorem Visits.derives_of_mem_chains {rules : RuleTable}
    (h : Visits (Rows.ofRules settings.order rules) settings goal
      ((Rows.ofRules settings.order rules).bodies goal) {} harvest) {chain : List Char}
    (hchain : String.ofList chain ∈ harvest.chains) :
    rules.Derives goal chain ∧ settings.min ≤ chain.length ∧ chain.length ≤ settings.max := by
  have hfound := h.sound (solves_ofRules settings.order rules) (List.mem_reverse.mp hchain)
  exact exists_offers_iff.mp (hfound.resolve_left List.not_mem_nil)

/-- A search that nobody stops completes with the chains of the window that the goal derives, each
of them once. -/
def IsExact (rules : RuleTable) (goal : String) (settings : Settings) : Prop :=
  ∃ chains, generate rules goal settings none = .completed chains ∧ chains.Nodup ∧
    ∀ chain : List Char, String.ofList chain ∈ chains ↔
      rules.Derives goal chain ∧ settings.min ≤ chain.length ∧ chain.length ≤ settings.max

/-- Whatever the table, a search that nobody stops completes with chains of the window that the goal
derives, each of them once. -/
theorem generate_sound (rules : RuleTable) (goal : String) (settings : Settings) :
    ∃ chains, generate rules goal settings none = .completed chains ∧ chains.Nodup ∧
      ∀ chain ∈ chains, rules.Derives goal chain.toList ∧ settings.min ≤ chain.length ∧
        chain.length ≤ settings.max := by
  obtain ⟨harvest, hgenerate, hvisits⟩ := exists_generate rules goal settings
  refine ⟨harvest.chains, hgenerate, hvisits.nodup_chains, fun chain hchain => ?_⟩
  apply hvisits.derives_of_mem_chains
  simpa using hchain

end FormalLanguages.Generation
