import FormalLanguages.Proofs.Generation.Completeness
import FormalLanguages.Proofs.Generation.Windows
import FormalLanguages.Proofs.Pumping

/-!
Searches of finite languages. Each chain of a goal has a derivation without any name that comes up
again on its way down, if only all chains of the goal are short. A search that follows such a
derivation expands a name at most once on each path: it meets no loop itself, and no loop leads out
of the branches that it tries before. So whatever the table, nothing is lost.
-/

namespace FormalLanguages.Generation

/-! ### Frames with a path each -/

/-- What the names stand for depends on the path. On a path that holds it a name stands for nothing,
and elsewhere for what one of its bodies stands for on the longer path. -/
structure Guides (I : List String → Interpretation) (rows : Rows) : Prop where
  not_mem : ∀ path name letters, I path name letters → name ∉ path
  exists_body : ∀ path name letters, I path name letters →
    ∃ body ∈ rows.bodies name, body.Reads (I (name :: path)) letters

/-- The frames stand for the letters, each of them on its own path. -/
def Stand (I : List String → Interpretation) : List Frame → List Char → Prop
  | [], letters => letters = []
  | frame :: frames, letters => ∃ first rest, letters = first ++ rest ∧
      frame.symbols.Reads (I frame.path) first ∧ Stand I frames rest

/-- Reading on each path what the names stand for there can end with these letters. -/
def Task.Follows (I : List String → Interpretation) : Task → List Char → Prop
  | .read frames letters, final => ∃ rest, Stand I frames rest ∧ rest.reverse ++ letters = final
  | .expand name path frames letters bodies, final => ∃ body ∈ bodies, ∃ rest,
      Stand I (⟨body, name :: path⟩ :: frames) rest ∧ rest.reverse ++ letters = final

variable {I : List String → Interpretation} {J : Interpretation} {rows : Rows}
variable {settings : Settings} {name goal : String} {symbols body : Body} {path : List String}
variable {frames : List Frame} {letters final : List Char} {others : List Body}
variable {rules : RuleTable}

theorem follows_leave (h : (Task.read (⟨[], path⟩ :: frames) letters).Follows I final) :
    (Task.read frames letters).Follows I final := by
  obtain ⟨_, ⟨_, rest, rfl, rfl, hrest⟩, rfl⟩ := h
  exact ⟨rest, hrest, rfl⟩

theorem follows_letter {c : Char}
    (h : (Task.read (⟨.terminal c :: symbols, path⟩ :: frames) letters).Follows I final) :
    (Task.read (⟨symbols, path⟩ :: frames) (c :: letters)).Follows I final := by
  obtain ⟨_, ⟨_, rest, rfl, ⟨first, rfl, hfirst⟩, hrest⟩, rfl⟩ := h
  exact ⟨first ++ rest, ⟨first, rest, rfl, hfirst, hrest⟩, by simp⟩

theorem follows_enter (hI : Guides I rows)
    (h : (Task.read (⟨.nonTerminal name :: symbols, path⟩ :: frames) letters).Follows I final) :
    name ∉ path ∧
      (Task.expand name path (⟨symbols, path⟩ :: frames) letters (rows.bodies name)).Follows I
        final := by
  obtain ⟨_, ⟨_, last, rfl, ⟨first, middle, rfl, hname, hmiddle⟩, hlast⟩, rfl⟩ := h
  obtain ⟨body, hbody, hreads⟩ := hI.exists_body path name first hname
  refine ⟨hI.not_mem path name first hname, body, hbody, first ++ (middle ++ last), ?_, by simp⟩
  exact ⟨first, middle ++ last, rfl, hreads, middle, last, rfl, hmiddle, hlast⟩

theorem follows_bodies
    (h : (Task.expand name path frames letters (body :: others)).Follows I final) :
    (Task.read (⟨body, name :: path⟩ :: frames) letters).Follows I final ∨
      (Task.expand name path frames letters others).Follows I final := by
  obtain ⟨own, hown, hrest⟩ := h
  rcases List.mem_cons.mp hown with rfl | hown
  · exact .inl hrest
  · exact .inr ⟨own, hown, hrest⟩

/-! ### The invariant -/

/-- The task comes to the letters without any name twice on a path, and to no chain that is too
long. -/
structure Task.OnTrack (I : List String → Interpretation) (J : Interpretation)
    (settings : Settings) (final : List Char) (task : Task) : Prop where
  within : task.Within 1
  short : ∀ other, task.Leads J other → other.length ≤ settings.max
  follows : task.Follows I final

theorem secures_onTrack (hI : Guides I rows) (hJ : Solves J rows) (hmax : 1 ≤ settings.max)
    (final : List Char) : Secures rows settings final (Task.OnTrack I J settings final) where
  done letters h := by
    obtain ⟨_, rfl, hfinal⟩ := h.follows
    exact hfinal
  leave path frames letters h :=
    ⟨within_leave h.within, fun other hother => h.short other (leads_leave.mpr hother),
      follows_leave h.follows⟩
  letter c symbols path frames letters h :=
    ⟨h.within, fun other hother => h.short other (leads_letter.mpr hother),
      follows_letter h.follows⟩
  enter name symbols path frames letters h := by
    obtain ⟨hnew, hfollows⟩ := follows_enter hI h.follows
    have hcount : path.count name = 0 := List.count_eq_zero.mpr hnew
    refine ⟨by omega, within_enter h.within (Nat.le_of_eq hcount), fun other hother => ?_, hfollows⟩
    exact h.short other ((leads_enter (hJ name)).mpr hother)
  exhausted name path frames letters h := by
    obtain ⟨body, hbody, -⟩ := h.follows
    exact absurd hbody List.not_mem_nil
  bodies name path frames letters body others h := by
    rcases follows_bodies h.follows with hfollows | hfollows
    · exact .inl ⟨h.within, fun other hother => h.short other (leads_bodies.mpr (.inl hother)),
        hfollows⟩
    · exact .inr ⟨h.within, fun other hother => h.short other (leads_bodies.mpr (.inr hother)),
        hfollows⟩
  goes_on name path frames letters body others h harvest harvest' outcome hbody := by
    refine ⟨fun letters' hchain => ?_, fun looped hloop => ?_⟩
    · -- the body comes to this chain, so it is one of the short ones
      exact h.short letters' (leads_bodies.mpr (.inl (hbody.spells hchain).leads))
    · have hwithin : (Task.read (⟨body, name :: path⟩ :: frames) letters).Within settings.max :=
        fun other hother looped => Nat.le_trans (h.within other hother looped) hmax
      exact absurd hloop (hbody.ne_loopAt hwithin looped)

/-! ### The generator -/

/-- Ways down the derivations of a goal with short chains guide a search of its table. -/
theorem guides_descends {length : Nat}
    (hshort : ∀ chain, rules.Derives goal chain → chain.length ≤ length) (order : Order) :
    Guides (fun path name letters => rules.Descends goal path name (order.text letters))
      (Rows.ofRules order rules) where
  not_mem path name letters h := h.not_mem hshort
  exists_body path name letters h := by
    obtain ⟨body, hrule, hreads⟩ := h.exists_body
    exact ⟨_, Rows.mem_bodies_ofRules.mpr ⟨body, hrule, rfl⟩, Order.reads_arrange_iff.mpr hreads⟩

/-- The search from a goal starts on track to each of its chains. -/
theorem exists_onTrack (order : Order)
    (hshort : ∀ chain, rules.Derives goal chain → chain.length ≤ settings.max)
    {chain : List Char} (hchain : rules.Derives goal chain) :
    ∃ body ∈ (Rows.ofRules order rules).bodies goal,
      (Task.read [⟨body, [goal]⟩] []).OnTrack
        (fun path name letters => rules.Descends goal path name (order.text letters))
        (order.derives rules) settings (order.text chain).reverse := by
  have hguides := guides_descends hshort order
  have hgoal : rules.Descends goal [] goal (order.text (order.text chain)) := by
    rw [Order.text_text]
    exact RuleTable.descends_goal hchain
  obtain ⟨body, hbody, hreads⟩ := hguides.exists_body [] goal _ hgoal
  refine ⟨body, hbody, fun path hpath name => ?_, fun other hother => ?_, order.text chain, ?_, ?_⟩
  · obtain rfl := List.mem_singleton.mp hpath
    exact List.count_le_length
  · obtain ⟨rest, hrest, rfl⟩ := hother
    rw [form_cons, form_nil, List.append_nil] at hrest
    have hlength := hshort _ (Rows.derives_iff.mpr ⟨body, hbody, hrest⟩)
    simpa using hlength
  · exact ⟨order.text chain, [], (List.append_nil _).symm, hreads, rfl⟩
  · exact List.append_nil _

/-- Where all chains of the goal are within the maximum, and the maximum is not zero, the search
finds all of them that reach the minimum, each once, whatever the table looks like. -/
theorem generate_finite (rules : RuleTable) (goal : String) (settings : Settings)
    (hmax : 1 ≤ settings.max)
    (hfinite : ∀ chain, rules.Derives goal chain → chain.length ≤ settings.max) :
    ∃ chains, generate rules goal settings none = .completed chains ∧ chains.Nodup ∧
      ∀ chain : List Char, String.ofList chain ∈ chains ↔
        rules.Derives goal chain ∧ settings.min ≤ chain.length := by
  obtain ⟨harvest, hgenerate, hvisits⟩ := exists_generate rules goal settings
  refine ⟨harvest.chains, hgenerate, hvisits.nodup_chains, fun chain => ⟨fun hchain => ?_, ?_⟩⟩
  · obtain ⟨hderives, hmin, -⟩ := hvisits.derives_of_mem_chains hchain
    exact ⟨hderives, hmin⟩
  · rintro ⟨hderives, hmin⟩
    obtain ⟨body, hbody, htrack⟩ := exists_onTrack settings.order hfinite hderives
    have hsecures := secures_onTrack (guides_descends hfinite settings.order)
      (solves_ofRules settings.order rules) hmax (settings.order.text chain).reverse
    have hwindow : settings.min ≤ (settings.order.text chain).reverse.length ∧
        (settings.order.text chain).reverse.length ≤ settings.max := by
      rw [List.length_reverse, Order.length_text]
      exact ⟨hmin, hfinite chain hderives⟩
    have hfound := hvisits.mem_found_of_secures hsecures hbody htrack hwindow
    rw [Order.chain_reverse, Order.text_text] at hfound
    exact List.mem_reverse.mpr hfound

/-- Chain bodies lead from `S` to `Y` and back, `W` derives the empty chain, and `M` has no body. -/
def chainCycle : RuleTable :=
  .ofList [Rule.mk "S" [.nonTerminal "M", .terminal 'b'], ⟨"S", [.nonTerminal "Y"]⟩,
    ⟨"Y", [.nonTerminal "S"]⟩, ⟨"Y", [.nonTerminal "W"]⟩, ⟨"W", []⟩, ⟨"W", [.terminal 'a']⟩]

example : generate chainCycle "S" ⟨0, 1, .rightmost, by decide⟩ none = .completed ["", "a"] := by
  decide +kernel

/-- With the maximum zero, the loop at `S` ends the bodies of `Y` before the empty chain. -/
example : generate chainCycle "S" ⟨0, 0, .rightmost, by decide⟩ none = .completed [] := by
  decide +kernel

theorem length_le_of_derives_chainCycle {chain : List Char} (h : chainCycle.Derives "S" chain) :
    chain.length ≤ 1 := by
  refine (RuleTable.derives_induction
    (I := fun name chain => name ≠ "M" ∧ chain.length ≤ 1) ?_ h).2
  intro name body chain hrule hreads
  simp only [chainCycle, Std.ExtTreeSet.mem_ofList, List.contains_iff_mem, List.mem_cons,
    List.not_mem_nil, or_false, Rule.mk.injEq] at hrule
  rcases hrule with ⟨rfl, rfl⟩ | ⟨rfl, rfl⟩ | ⟨rfl, rfl⟩ | ⟨rfl, rfl⟩ | ⟨rfl, rfl⟩ | ⟨rfl, rfl⟩
  · obtain ⟨first, rest, -, ⟨-, hne, -⟩, -⟩ := hreads
    exact absurd rfl hne
  · exact ⟨by decide, (Body.Reads.singleton_iff.mp hreads).2.2⟩
  · exact ⟨by decide, (Body.Reads.singleton_iff.mp hreads).2.2⟩
  · exact ⟨by decide, (Body.Reads.singleton_iff.mp hreads).2.2⟩
  · obtain rfl := Body.Reads.nil_iff.mp hreads
    exact ⟨by decide, Nat.zero_le _⟩
  · obtain ⟨rest, rfl, rfl⟩ := hreads
    exact ⟨by decide, Nat.le_refl _⟩

theorem generate_finite_chainCycle :
    1 ≤ 1 ∧ (∀ chain, chainCycle.Derives "S" chain → chain.length ≤ 1) ∧ ∃ chains,
      generate chainCycle "S" ⟨0, 1, .rightmost, by decide⟩ none = .completed chains ∧
        chains.Nodup ∧ ∀ chain : List Char, String.ofList chain ∈ chains ↔
          chainCycle.Derives "S" chain ∧ 0 ≤ chain.length :=
  ⟨by decide, fun _ => length_le_of_derives_chainCycle,
    generate_finite chainCycle "S" ⟨0, 1, .rightmost, by decide⟩ (by decide) fun _ =>
      length_le_of_derives_chainCycle⟩

end FormalLanguages.Generation
