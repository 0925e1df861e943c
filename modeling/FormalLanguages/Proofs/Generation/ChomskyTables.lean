import FormalLanguages.Proofs.Chomsky.Languages
import FormalLanguages.Proofs.Generation.Completeness

/-!
Searches of tables in Chomsky form. There no name but the goal derives the empty chain, so a form
never gets shorter, and an expansion that does not make it longer leaves no name behind. Hence a
form is longer than the path of every name in it: when a name recurs too often, or a chain is too
long, all chains that are still to come on the branch are too long, and nothing is lost.
-/

namespace FormalLanguages.Generation

namespace Rows

/-- Some body refers to the name. -/
def Mentions (rows : Rows) (name : String) : Prop :=
  ∃ head, ∃ body ∈ rows.bodies head, .nonTerminal name ∈ body

/-- All bodies are split, but for the empty body of a name that no body refers to. -/
def IsChomsky (rows : Rows) : Prop :=
  ∀ name, ∀ body ∈ rows.bodies name, body.IsSplit ∨ body = [] ∧ ¬ rows.Mentions name

theorem mentions_of_ofRules {order : Order} {rules : RuleTable} {name : String}
    (h : (ofRules order rules).Mentions name) : rules.Mentions name := by
  obtain ⟨head, body, hbody, hname⟩ := h
  obtain ⟨old, hold, rfl⟩ := mem_bodies_ofRules.mp hbody
  refine ⟨_, hold, ?_⟩
  cases order with
  | leftmost => exact hname
  | rightmost => exact List.mem_reverse.mp hname

theorem isChomsky_ofRules {rules : RuleTable} (h : rules.IsChomsky) (order : Order) :
    (ofRules order rules).IsChomsky := by
  intro name body hbody
  obtain ⟨old, hold, rfl⟩ := mem_bodies_ofRules.mp hbody
  rcases h _ hold with hsplit | ⟨hnil, hfree⟩
  · cases order with
    | leftmost => exact .inl hsplit
    | rightmost => exact .inl hsplit.reverse
  · obtain rfl : old = [] := hnil
    refine .inr ⟨?_, fun hname => hfree (mentions_of_ofRules hname)⟩
    cases order <;> rfl

theorem IsChomsky.isSplit {rows : Rows} (h : rows.IsChomsky) {name : String}
    (hname : rows.Mentions name) {body : Body} (hbody : body ∈ rows.bodies name) : body.IsSplit :=
  (h name body hbody).resolve_right fun hnil => hnil.2 hname

end Rows

namespace Task

/-- The length of the form, the name that is expanded included. -/
def size : Task → Nat
  | .read frames letters => letters.length + (form frames).length
  | .expand _ _ frames letters _ => letters.length + 1 + (form frames).length

/-- The bodies to be tried are bodies of the name. -/
def Draws (rows : Rows) : Task → Prop
  | .read .. => True
  | .expand name _ _ _ bodies => ∀ body ∈ bodies, body ∈ rows.bodies name

/-- The invariant of the search. -/
structure Fits (rows : Rows) (task : Task) : Prop where
  /-- The path of a name is shorter than the form. -/
  deep : ∀ path name, task.Waits path name → path.length < task.size
  mentioned : ∀ path name, task.Waits path name → rows.Mentions name
  draws : task.Draws rows

end Task

variable {rows : Rows} {settings : Settings} {task task' : Task} {name goal : String}
variable {symbols body : Body} {path : List String} {frames : List Frame} {letters : List Char}
variable {bodies others : List Body} {I : Interpretation} {final : List Char}

/-! ### Steps of the search -/

theorem Task.Fits.of_waits (h : task.Fits rows) (hsize : task'.size = task.size)
    (hwaits : ∀ path name, task'.Waits path name → task.Waits path name)
    (hdraws : task'.Draws rows) : task'.Fits rows where
  deep path name hname := by
    rw [hsize]
    exact h.deep path name (hwaits path name hname)
  mentioned path name hname := h.mentioned path name (hwaits path name hname)
  draws := hdraws

theorem fits_leave (h : (Task.read (⟨[], path⟩ :: frames) letters).Fits rows) :
    (Task.read frames letters).Fits rows :=
  h.of_waits rfl (fun _ _ hname => waitsIn_cons.mpr (.inr hname)) trivial

theorem fits_letter {c : Char}
    (h : (Task.read (⟨.terminal c :: symbols, path⟩ :: frames) letters).Fits rows) :
    (Task.read (⟨symbols, path⟩ :: frames) (c :: letters)).Fits rows := by
  refine h.of_waits ?_ (fun _ _ hname => waitsIn_of_tail hname) trivial
  simp only [Task.size, form_cons, List.length_append, List.length_cons]
  omega

theorem fits_enter
    (h : (Task.read (⟨.nonTerminal name :: symbols, path⟩ :: frames) letters).Fits rows) :
    (Task.expand name path (⟨symbols, path⟩ :: frames) letters (rows.bodies name)).Fits rows := by
  refine h.of_waits ?_ (fun _ _ hname => waits_enter hname) fun body hbody => hbody
  simp only [Task.size, form_cons, List.length_append, List.length_cons]
  omega

theorem fits_others (h : (Task.expand name path frames letters (body :: others)).Fits rows) :
    (Task.expand name path frames letters others).Fits rows :=
  h.of_waits rfl (fun _ _ hname => hname) fun other hother =>
    h.draws other (List.mem_cons_of_mem _ hother)

/-- The body of an expanded name is split. -/
theorem Task.Fits.isSplit (h : (Task.expand name path frames letters bodies).Fits rows)
    (hrows : rows.IsChomsky) (hbody : body ∈ bodies) : body.IsSplit :=
  hrows.isSplit (h.mentioned path name (.inl ⟨rfl, rfl⟩)) (h.draws body hbody)

/-- A body of two names adds as much to the form as to the paths. -/
theorem fits_body (hrows : rows.IsChomsky)
    (h : (Task.expand name path frames letters bodies).Fits rows) (hbody : body ∈ bodies) :
    (Task.read (⟨body, name :: path⟩ :: frames) letters).Fits rows := by
  have hsplit := h.isSplit hrows hbody
  have hsize : (Task.read (⟨body, name :: path⟩ :: frames) letters).size + 1 =
      (Task.expand name path frames letters bodies).size + body.length := by
    simp only [Task.size, form_cons, List.length_append]
    omega
  refine ⟨fun other waiting hwaits => ?_, fun other waiting hwaits => ?_, trivial⟩
  · rcases waitsIn_cons.mp hwaits with ⟨rfl, hmem⟩ | hwaits
    · -- two names lengthen the form by one symbol, as the expansion does the path
      have hpath := h.deep path name (.inl ⟨rfl, rfl⟩)
      rcases hsplit with ⟨c, rfl⟩ | ⟨left, right, rfl⟩
      · simp at hmem
      · simp only [List.length_cons, List.length_nil] at hsize ⊢
        omega
    · have hpath := h.deep other waiting (.inr hwaits)
      have hpos := hsplit.length_pos
      omega
  · rcases waitsIn_cons.mp hwaits with ⟨-, hmem⟩ | hwaits
    · exact ⟨name, body, h.draws body hbody, hmem⟩
    · exact h.mentioned other waiting (.inr hwaits)

/-! ### Lengths -/

theorem Task.Spells.size_eq (h : (Task.read frames letters).Spells final) :
    (Task.read frames letters).size = final.length := by
  obtain ⟨rest, hform, rfl⟩ := h
  simp only [Task.size, hform, List.length_map, List.length_append, List.length_reverse]
  omega

/-- A chain that is too long comes from a body that is no longer than its name. -/
theorem size_le_of_spells (hrows : rows.IsChomsky)
    (h : (Task.expand name path frames letters bodies).Fits rows) (hbody : body ∈ bodies)
    (hspells : (Task.read (⟨body, name :: path⟩ :: frames) letters).Spells final) :
    final.length ≤ (Task.expand name path frames letters bodies).size := by
  rw [← hspells.size_eq]
  rcases h.isSplit hrows hbody with ⟨c, rfl⟩ | ⟨left, right, rfl⟩
  · simp only [Task.size, form_cons, List.length_append, List.length_singleton]
    omega
  · obtain ⟨rest, hform, -⟩ := hspells
    have hmem : Symbol.nonTerminal left ∈ rest.map Symbol.terminal := by
      rw [← hform, form_cons]
      simp
    simp at hmem

/-- No name stands for the empty chain, so no form is longer than the chains that it leads to. -/
theorem size_le_of_leads (hrows : rows.IsChomsky)
    (hI : ∀ name, rows.Mentions name → ∀ letters, I name letters → letters ≠ [])
    (h : task.Fits rows) (hleads : task.Leads I final) : task.size ≤ final.length := by
  have hread {frames : List Frame} {letters : List Char} (h : (Task.read frames letters).Fits rows)
      (hleads : (Task.read frames letters).Leads I final) :
      (Task.read frames letters).size ≤ final.length := by
    obtain ⟨rest, hrest, rfl⟩ := hleads
    have hle := hrest.length_le fun name hname => by
      obtain ⟨frame, hframe, hname⟩ := List.mem_flatMap.mp hname
      exact hI name (h.mentioned frame.path name ⟨frame, hframe, rfl, hname⟩)
    simp only [Task.size, List.length_append, List.length_reverse]
    omega
  cases task with
  | read frames letters => exact hread h hleads
  | expand name path frames letters bodies =>
      -- the letters are read through one of the bodies, none of which is empty
      obtain ⟨body, hbody, hleads⟩ := hleads
      have hle := hread (fits_body hrows h hbody) hleads
      have hpos := (h.isSplit hrows hbody).length_pos
      simp only [Task.size, form_cons, List.length_append] at hle ⊢
      omega

/-! ### Nothing is lost -/

/-- A loop starts at a form that is too long, wherever it is caught. -/
theorem Runs.lt_size_of_loop {harvest harvest' : Harvest} {looped : String}
    (h : Runs rows settings task harvest harvest' (.loopAt looped)) (hfits : task.Fits rows) :
    settings.max < task.size := by
  obtain ⟨path, name, hwaits, hcount⟩ := h.exists_loop rfl
  calc settings.max < path.count looped := hcount
    _ ≤ path.length := List.count_le_length
    _ < task.size := hfits.deep path name hwaits

/-- The chains of the window that a task leads to are secured. -/
theorem secures_leads (hrows : rows.IsChomsky) (hI : Solves I rows)
    (hnames : ∀ name, rows.Mentions name → ∀ letters, I name letters → letters ≠ [])
    (hmax : final.length ≤ settings.max) :
    Secures rows settings final fun task => task.Fits rows ∧ task.Leads I final := by
  have hshort {task : Task} (hfits : task.Fits rows) (hleads : task.Leads I final) :
      task.size ≤ settings.max :=
    Nat.le_trans (size_le_of_leads hrows hnames hfits hleads) hmax
  refine ⟨?_, ?_, ?_, ?_, ?_, ?_, ?_⟩
  · exact fun letters h => leads_done.mp h.2
  · exact fun path frames letters h => ⟨fits_leave h.1, leads_leave.mp h.2⟩
  · exact fun c symbols path frames letters h => ⟨fits_letter h.1, leads_letter.mp h.2⟩
  · rintro name symbols path frames letters ⟨hfits, hleads⟩
    refine ⟨?_, fits_enter hfits, (leads_enter (hI name)).mp hleads⟩
    have hpath := hfits.deep path name (waitsIn_cons.mpr (.inl ⟨rfl, List.mem_cons_self⟩))
    calc path.count name ≤ path.length := List.count_le_length
      _ ≤ settings.max := Nat.le_trans (Nat.le_of_lt hpath) (hshort hfits hleads)
  · exact fun name path frames letters h => not_leads_exhausted h.2
  · rintro name path frames letters body others ⟨hfits, hleads⟩
    exact (leads_bodies.mp hleads).imp (⟨fits_body hrows hfits List.mem_cons_self, ·⟩)
      (⟨fits_others hfits, ·⟩)
  · rintro name path frames letters body others ⟨hfits, hleads⟩ harvest harvest' outcome hbody
    refine ⟨fun letters' hchain => ?_, fun looped hloop => ?_⟩
    · -- the bodies that are given up lead to chains that are no shorter than this one
      have hle := size_le_of_spells hrows hfits List.mem_cons_self (hbody.spells hchain)
      exact Nat.le_trans hle (hshort hfits hleads)
    · by_contra hne
      rw [hloop] at hbody
      have hrun : Runs rows settings (.expand name path frames letters (body :: others)) harvest
          harvest' (.loopAt looped) := .unwind hbody hne
      have hlong := hrun.lt_size_of_loop hfits
      exact absurd (hshort hfits hleads) (Nat.not_le_of_lt hlong)

/-- The invariant holds where a search starts. -/
theorem fits_goal (hrows : rows.IsChomsky) (hbody : body ∈ rows.bodies goal) :
    (Task.read [⟨body, [goal]⟩] []).Fits rows := by
  have hwaits {path : List String} {name : String}
      (h : (Task.read [⟨body, [goal]⟩] []).Waits path name) :
      [goal] = path ∧ .nonTerminal name ∈ body := by
    simpa [Task.Waits, WaitsIn] using h
  refine ⟨fun path name h => ?_, fun path name h => ⟨goal, body, hbody, (hwaits h).2⟩, trivial⟩
  obtain ⟨rfl, hmem⟩ := hwaits h
  rcases hrows goal body hbody with (⟨c, rfl⟩ | ⟨left, right, rfl⟩) | ⟨rfl, -⟩
  · simp at hmem
  · simp [Task.size]
  · exact absurd hmem List.not_mem_nil

/-! ### The generator -/

theorem isExact_of_isChomsky {rules : RuleTable} (hrules : rules.IsChomsky) (goal : String)
    (settings : Settings) : IsExact rules goal settings := by
  have hrows := Rows.isChomsky_ofRules hrules settings.order
  have hsolves := solves_ofRules settings.order rules
  have hnames : ∀ name, (Rows.ofRules settings.order rules).Mentions name → ∀ letters,
      settings.order.derives rules name letters → letters ≠ [] := by
    rintro name hname letters hderives rfl
    exact hrules.ne_nil (Rows.mentions_of_ofRules hname) hderives (by cases settings.order <;> rfl)
  obtain ⟨harvest, hgenerate, hvisits⟩ := exists_generate rules goal settings
  refine ⟨harvest.chains, hgenerate, hvisits.nodup_chains, fun chain => ?_⟩
  constructor
  · exact hvisits.derives_of_mem_chains
  · intro hchain
    obtain ⟨body, hbody, final, hleads, hwindow, heq⟩ := exists_offers_iff.mpr hchain
    rw [heq]
    exact List.mem_reverse.mpr (hvisits.mem_found_of_secures
      (secures_leads hrows hsolves hnames hwindow.2) hbody ⟨fits_goal hrows hbody, hleads⟩ hwindow)

/-- The search is exact on tables in Chomsky form, such as those of the Chomsky forms of canonical
forms: neither a chain that is too long nor a name that recurs too often ends a branch too early. -/
theorem generate_exact (settings : Settings) :
    (∀ rules : RuleTable, rules.IsChomsky → ∀ goal, IsExact rules goal settings) ∧
    ∀ g g' : Grammar, g.Reachable → g.toCanonical = .ok g' →
      ∀ goal, IsExact g'.toChomsky.rules goal settings := by
  refine ⟨fun rules hrules goal => isExact_of_isChomsky hrules goal settings, ?_⟩
  intro g g' hg h goal
  obtain ⟨root, hcanonical⟩ := hg.closed.isCanonical_toCanonical h
  exact isExact_of_isChomsky hcanonical.isChomsky_toChomsky goal settings

/-- The goal `S` derives the empty chain, and some `a` before one `b`. -/
def someAsThenB : RuleTable :=
  .ofList [Rule.mk "S" [], ⟨"S", [.nonTerminal "A", .nonTerminal "B"]⟩,
    ⟨"A", [.nonTerminal "A", .nonTerminal "A"]⟩, ⟨"A", [.terminal 'a']⟩, ⟨"B", [.terminal 'b']⟩]

def upToThree : Settings := ⟨0, 3, .leftmost, Nat.zero_le 3⟩

example : generate someAsThenB "S" upToThree none = .completed ["", "ab", "aab"] := by
  decide +kernel

theorem isChomsky_someAsThenB : someAsThenB.IsChomsky := by
  intro rule hrule
  simp only [someAsThenB, Std.ExtTreeSet.mem_ofList, List.contains_iff_mem, List.mem_cons,
    List.not_mem_nil, or_false] at hrule
  rcases hrule with rfl | rfl | rfl | rfl | rfl
  · refine .inr ⟨rfl, ?_⟩
    simp [RuleTable.Mentions, someAsThenB, Std.ExtTreeSet.mem_ofList]
  all_goals simp [Body.IsSplit]

theorem generate_exact_upToThree :
    someAsThenB.IsChomsky ∧ IsExact someAsThenB "S" upToThree ∧
      Grammar.nullableGoal.Reachable ∧ ∃ g, Grammar.nullableGoal.toCanonical = .ok g ∧
        ∀ goal, IsExact g.toChomsky.rules goal upToThree := by
  obtain ⟨g, hg⟩ := Grammar.exists_toCanonical_nullableGoal
  have h := generate_exact upToThree
  exact ⟨isChomsky_someAsThenB, h.1 someAsThenB isChomsky_someAsThenB "S",
    Grammar.reachable_nullableGoal, g, hg,
    h.2 Grammar.nullableGoal g Grammar.reachable_nullableGoal hg⟩

end FormalLanguages.Generation
