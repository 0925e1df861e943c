import FormalLanguages.Proofs.Chomsky.Splitting

/-!
The rules of fresh names. A name is made up where a body is about to refer to it and gets its one
rule right away, so no fresh name has two bodies and none is without use: chains of references lead
to it from a declared name.
-/

namespace FormalLanguages.Grammar

open Relation RuleTable

variable {g : Grammar}

namespace Splitting

variable {s s' s'' : Splitting} {body : Body}

/-! ### Making a body -/

/-- All heads are names in use. -/
def HeadsTaken (s : Splitting) : Prop :=
  ∀ rule ∈ s.rules, rule.head ∈ s.supply.taken

/-- Two rules of one head are the same, except for heads among the known names. -/
def SingleBodies (known : String → Prop) (s : Splitting) : Prop :=
  ∀ rule ∈ s.rules, ∀ other ∈ s.rules, rule.head = other.head → ¬ known rule.head → rule = other

/-- Between the states a body has been made: the rules that have come in are those of new names,
one for each, and references lead to every new name from the body. -/
structure Makes (s s' : Splitting) (body : Body) : Prop where
  taken : ∀ name ∈ s.supply.taken, name ∈ s'.supply.taken
  rules : ∀ rule ∈ s.rules, rule ∈ s'.rules
  added : ∀ rule ∈ s'.rules,
    rule ∈ s.rules ∨ rule.head ∈ s'.supply.taken ∧ rule.head ∉ s.supply.taken
  single : s'.SingleBodies (· ∈ s.supply.taken)
  reached : ∀ name ∈ s'.supply.taken, name ∈ s.supply.taken ∨
    ∃ start, .nonTerminal start ∈ body ∧ ReflTransGen s'.rules.Refers start name

theorem Makes.refl (hs : s.HeadsTaken) (body : Body) : Makes s s body where
  taken _ h := h
  rules _ h := h
  added _ h := .inl h
  single rule hrule _ _ _ hnew := absurd (hs rule hrule) hnew
  reached _ h := .inl h

theorem Makes.headsTaken (h : Makes s s' body) (hs : s.HeadsTaken) : s'.HeadsTaken := by
  intro rule hrule
  rcases h.added rule hrule with hold | ⟨hnew, -⟩
  · exact h.taken _ (hs rule hold)
  · exact hnew

/-- A rule whose head has been in use before has been there before. -/
theorem Makes.mem_rules_of_head_mem (h : Makes s s' body) {rule : Rule} (hrule : rule ∈ s'.rules)
    (hhead : rule.head ∈ s.supply.taken) : rule ∈ s.rules :=
  (h.added rule hrule).resolve_right fun hnew => hnew.2 hhead

theorem Makes.singleBodies (h : Makes s s' body) {known : String → Prop}
    (hs : s.SingleBodies known) : s'.SingleBodies known := by
  intro rule hrule other hother heq hunknown
  by_cases htaken : rule.head ∈ s.supply.taken
  · have hruleOld := h.mem_rules_of_head_mem hrule htaken
    have hotherOld := h.mem_rules_of_head_mem hother (heq ▸ htaken)
    exact hs rule hruleOld other hotherOld heq hunknown
  · exact h.single rule hrule other hother heq htaken

theorem Makes.trans {left right : Body} (h : Makes s s' left) (h' : Makes s' s'' right) :
    Makes s s'' (left ++ right) where
  taken name hname := h'.taken name (h.taken name hname)
  rules rule hrule := h'.rules rule (h.rules rule hrule)
  added rule hrule := by
    rcases h'.added rule hrule with hold | ⟨hnew, hfree⟩
    · exact (h.added rule hold).imp_right fun hnew => ⟨h'.taken _ hnew.1, hnew.2⟩
    · exact .inr ⟨hnew, fun htaken => hfree (h.taken _ htaken)⟩
  single := h'.singleBodies h.single
  reached name hname := by
    rcases h'.reached name hname with hold | ⟨start, hstart, hpath⟩
    · refine (h.reached name hold).imp_right fun ⟨start, hstart, hpath⟩ => ?_
      exact ⟨start, List.mem_append_left _ hstart, reflTransGen_refers_mono h'.rules hpath⟩
    · exact .inr ⟨start, List.mem_append_right _ hstart, hpath⟩

/-- References lead to the new names from a head that takes the body over. -/
theorem Makes.reached_add (h : Makes s s' body) (head : String) {name : String}
    (hname : name ∈ s'.supply.taken) : name ∈ s.supply.taken ∨
      ReflTransGen (s'.add ⟨head, body⟩).rules.Refers head name := by
  refine (h.reached name hname).imp_right fun ⟨start, hstart, hpath⟩ => ?_
  have hrefers : (s'.add ⟨head, body⟩).rules.Refers head start :=
    ⟨body, mem_add.mpr (.inl rfl), hstart⟩
  exact .head hrefers (reflTransGen_refers_mono (fun _ hrule => mem_add.mpr (.inr hrule)) hpath)

/-- A name is made up, then a body, and the body becomes the one of the name. -/
theorem Makes.invent (hs : s.HeadsTaken) {role : Role} (h : Makes (s.invent role).2 s' body) :
    Makes s (s'.add ⟨(s.invent role).1, body⟩) [.nonTerminal (s.invent role).1] := by
  have hnew := invent_not_mem_taken (s := s) role
  have hname : (s.invent role).1 ∈ (s.invent role).2.supply.taken :=
    mem_invent_taken.mpr (.inl rfl)
  have hkept {name : String} (h : name ∈ s.supply.taken) :
      name ∈ (s.invent role).2.supply.taken := mem_invent_taken.mpr (.inr h)
  -- no rule with the name as its head has come in before its own
  have hunused {rule : Rule} (hrule : rule ∈ s'.rules) : rule.head ≠ (s.invent role).1 := by
    intro heq
    have hold : rule ∈ s.rules := h.mem_rules_of_head_mem hrule (heq ▸ hname)
    exact hnew (heq ▸ hs rule hold)
  refine ⟨fun name hold => h.taken name (hkept hold), ?_, ?_, ?_, ?_⟩
  · intro rule hrule
    exact mem_add.mpr (.inr (h.rules rule hrule))
  · intro rule hrule
    rcases mem_add.mp hrule with rfl | hrule
    · exact .inr ⟨h.taken _ hname, hnew⟩
    · refine (h.added rule hrule).imp_right fun ⟨htaken, hfree⟩ => ⟨htaken, fun hold => ?_⟩
      exact hfree (hkept hold)
  · intro rule hrule other hother heq hfree
    rcases mem_add.mp hrule with rfl | hrule <;> rcases mem_add.mp hother with rfl | hother
    · rfl
    · exact absurd heq.symm (hunused hother)
    · exact absurd heq (hunused hrule)
    · refine h.single rule hrule other hother heq fun htaken => ?_
      exact (mem_invent_taken.mp htaken).elim (hunused hrule) hfree
  · intro name htaken
    rcases h.reached_add (s.invent role).1 htaken with hold | hpath
    · refine (mem_invent_taken.mp hold).symm.imp_right ?_
      rintro rfl
      exact ⟨_, List.mem_singleton_self _, .refl⟩
    · exact .inr ⟨_, List.mem_singleton_self _, hpath⟩

theorem headsTaken_invent (hs : s.HeadsTaken) (role : Role) : (s.invent role).2.HeadsTaken :=
  fun rule hrule => mem_invent_taken.mpr (.inr (hs rule hrule))

theorem makes_lift (hs : s.HeadsTaken) (role : Char → Role) (symbol : Symbol) :
    Makes s (s.lift role symbol).2 [(s.lift role symbol).1] := by
  cases symbol with
  | nonTerminal name => exact .refl hs _
  | terminal c =>
      cases hlookup : s.roles.lookup (role c) with
      | some name =>
          rw [lift_of_some hlookup]
          exact .refl hs _
      | none =>
          rw [lift_of_none hlookup]
          exact .invent hs (.refl (headsTaken_invent hs _) _)

theorem makes_lift_lift (hs : s.HeadsTaken) (role : Char → Role) (first second : Symbol) :
    Makes s ((s.lift role first).2.lift role second).2
      [(s.lift role first).1, ((s.lift role first).2.lift role second).1] := by
  have hfirst := makes_lift hs role first
  exact hfirst.trans (makes_lift (hfirst.headsTaken hs) role second)

theorem makes_split (hs : s.HeadsTaken) (first second : Symbol) (rest : Body) :
    Makes s (split first second rest s).2 (split first second rest s).1 := by
  induction rest generalizing first second s with
  | nil => exact makes_lift_lift hs .bracket first second
  | cons third rest ih =>
      have hleft := makes_lift hs .bracket first
      have hheads := hleft.headsTaken hs
      cases hlookup : (s.lift .bracket first).2.roles.lookup
          (.remainder (second :: third :: rest)) with
      | some name =>
          rw [split_of_some hlookup]
          exact hleft.trans (.refl hheads [.nonTerminal name])
      | none =>
          rw [split_of_none hlookup]
          exact hleft.trans (.invent hheads (ih (headsTaken_invent hheads _) second third))

/-! ### The whole table -/

/-- Every fresh name has at most one body, and references lead to it from a declared name. -/
structure Tidy (g : Grammar) (s : Splitting) : Prop where
  headsTaken : s.HeadsTaken
  declared : ∀ name ∈ g.nonTerminals, name ∈ s.supply.taken
  single : s.SingleBodies (· ∈ g.nonTerminals)
  reached : ∀ name ∈ s.supply.taken,
    ∃ head ∈ g.nonTerminals, ReflTransGen s.rules.Refers head name

/-- A body is made and becomes one of a declared name. -/
theorem Tidy.add (hs : Tidy g s) (h : Makes s s' body) {head : String}
    (hhead : head ∈ g.nonTerminals) : Tidy g (s'.add ⟨head, body⟩) where
  headsTaken rule hrule := by
    rcases mem_add.mp hrule with rfl | hrule
    · exact h.taken _ (hs.declared head hhead)
    · exact h.headsTaken hs.headsTaken rule hrule
  declared name hname := h.taken name (hs.declared name hname)
  single rule hrule other hother heq hfresh := by
    rcases mem_add.mp hrule with rfl | hrule
    · exact absurd hhead hfresh
    rcases mem_add.mp hother with rfl | hother
    · rw [heq] at hfresh
      exact absurd hhead hfresh
    exact h.singleBodies hs.single rule hrule other hother heq hfresh
  reached name hname := by
    rcases h.reached_add head hname with hold | hpath
    · obtain ⟨source, hsource, hpath⟩ := hs.reached name hold
      exact ⟨source, hsource, reflTransGen_refers_mono
        (fun rule hrule => mem_add.mpr (.inr (h.rules rule hrule))) hpath⟩
    · exact ⟨head, hhead, hpath⟩

theorem Tidy.addSplit (hs : Tidy g s) {rule : Rule} (hhead : rule.head ∈ g.nonTerminals)
    (goal : Option String) : Tidy g (s.addSplit goal rule) := by
  obtain ⟨head, body⟩ := rule
  have hadd (body : Body) : Tidy g (s.add ⟨head, body⟩) :=
    hs.add (.refl hs.headsTaken body) hhead
  match body with
  | [] =>
      simp only [Splitting.addSplit]
      split
      · exact hadd []
      · exact hs
  | [.terminal c] => exact hadd [.terminal c]
  | [.nonTerminal name] => exact hs
  | [first, second] =>
      rw [addSplit_pair]
      exact hs.add (makes_lift_lift hs.headsTaken (.standIn head) first second) hhead
  | first :: second :: third :: rest =>
      rw [addSplit_long]
      exact hs.add (makes_split hs.headsTaken first second (third :: rest)) hhead

theorem Tidy.foldl_addSplit (hs : Tidy g s) {rules : List Rule}
    (hheads : ∀ rule ∈ rules, rule.head ∈ g.nonTerminals) (goal : Option String) :
    Tidy g (rules.foldl (Splitting.addSplit goal) s) := by
  induction rules generalizing s with
  | nil => exact hs
  | cons rule rules ih =>
      refine ih (hs.addSplit (hheads rule List.mem_cons_self) goal) fun other hother => ?_
      exact hheads other (List.mem_cons_of_mem rule hother)

theorem tidy_start (g : Grammar) : Tidy g { supply := { taken := g.nonTerminals } } where
  headsTaken := by simp [HeadsTaken]
  declared _ h := h
  single := by simp [SingleBodies]
  reached name hname := ⟨name, hname, .refl⟩

end Splitting

open Splitting

/-- The Chomsky form is what splitting all rules leaves, and that is tidy. -/
theorem exists_tidy (hg : g.Closed) :
    ∃ s : Splitting, Tidy g s ∧ (∀ name ∈ g.toChomsky.nonTerminals, name ∈ s.supply.taken) ∧
      g.toChomsky.rules = s.rules := by
  have hrules : ∀ rule ∈ g.rules.toList, rule ∈ g.rules :=
    fun rule hrule => Std.ExtTreeSet.mem_toList.mp hrule
  have htidy := (tidy_start g).foldl_addSplit
    (fun rule hrule => hg.head rule (hrules rule hrule)) g.goal
  obtain ⟨hcont, -⟩ := foldl_addSplit_spec hg (sound_start g) hrules
  refine ⟨_, htidy, fun name hname => (hcont.sound.mem_taken name).mpr ?_, rfl⟩
  simpa only [toChomsky, Std.ExtTreeSet.mem_insertMany_list, List.contains_iff_mem] using hname

/-- A fresh name of the Chomsky form has one body only. -/
theorem eq_of_mem_toChomsky (hg : g.Closed) {name : String} (hname : name ∉ g.nonTerminals)
    {body other : Body} (hbody : ⟨name, body⟩ ∈ g.toChomsky.rules)
    (hother : ⟨name, other⟩ ∈ g.toChomsky.rules) : body = other := by
  obtain ⟨s, hs, -, heq⟩ := exists_tidy hg
  rw [heq] at hbody hother
  exact congrArg Rule.body (hs.single _ hbody _ hother rfl hname)

/-- References lead to every name of the Chomsky form from a declared one. -/
theorem exists_refers_toChomsky (hg : g.Closed) {name : String}
    (hname : name ∈ g.toChomsky.nonTerminals) :
    ∃ head ∈ g.nonTerminals, ReflTransGen g.toChomsky.rules.Refers head name := by
  obtain ⟨s, hs, htaken, heq⟩ := exists_tidy hg
  rw [heq]
  exact hs.reached name (htaken name hname)

end FormalLanguages.Grammar
