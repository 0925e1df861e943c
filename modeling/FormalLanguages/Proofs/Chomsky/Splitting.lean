import FormalLanguages.Grammar.Chomsky
import FormalLanguages.Proofs.Canonical.ChainRules
import FormalLanguages.Proofs.Chomsky.Tables
import FormalLanguages.Proofs.ClosedGrammar
import Mathlib.Tactic.Tauto

/-!
The invariant of splitting. Every symbol of a new rule stands for some symbols of the old grammar:
a declared one for itself, a fresh name for the meaning of its role. Read in this way a new body
spells the old body of its head, or the meaning of the role that its head has been made up for, and
every role that gets a name also gets the rule for it.
-/

namespace FormalLanguages.Grammar

/-- The rules that splitting keeps: no chain bodies, and the empty body under the goal only. -/
def keptRules (g : Grammar) : RuleTable :=
  g.rules.keep fun rule =>
    !rule.body.isChain && (!rule.body.isEmpty || decide (g.goal = some rule.head))

theorem mem_keptRules {g : Grammar} {rule : Rule} :
    rule ∈ g.keptRules ↔ rule ∈ g.rules ∧ rule.body.isChain = false ∧
      (rule.body = [] → g.goal = some rule.head) := by
  simp only [keptRules, RuleTable.mem_keep, Bool.and_eq_true, Bool.not_eq_true', Bool.or_eq_true,
    List.isEmpty_eq_false_iff, decide_eq_true_eq]
  tauto

namespace Splitting

/-! ### What new symbols stand for -/

/-- What a symbol of the new rules stands for among the old symbols. -/
inductive Stands (g : Grammar) (roles : List (Role × String)) : Symbol → Body → Prop where
  | terminal (c : Char) : Stands g roles (.terminal c) [.terminal c]
  | declared {name : String} (h : name ∈ g.nonTerminals) :
      Stands g roles (.nonTerminal name) [.nonTerminal name]
  | invented {role : Role} {name : String} (h : (role, name) ∈ roles) :
      Stands g roles (.nonTerminal name) role.meaning

/-- The symbols of a new body stand for those of an old one, part by part. -/
inductive Spells (g : Grammar) (roles : List (Role × String)) : Body → Body → Prop where
  | nil : Spells g roles [] []
  | cons {symbol : Symbol} {part body rest : Body} (hsymbol : Stands g roles symbol part)
      (hbody : Spells g roles body rest) : Spells g roles (symbol :: body) (part ++ rest)

variable {g : Grammar} {roles roles' : List (Role × String)}

theorem Stands.mono (hroles : roles ⊆ roles') {symbol : Symbol} {part : Body}
    (h : Stands g roles symbol part) : Stands g roles' symbol part := by
  cases h with
  | terminal c => exact .terminal c
  | declared hname => exact .declared hname
  | invented hrole => exact .invented (hroles hrole)

theorem Spells.mono (hroles : roles ⊆ roles') {body old : Body} (h : Spells g roles body old) :
    Spells g roles' body old := by
  induction h with
  | nil => exact .nil
  | cons hsymbol _ ih => exact .cons (hsymbol.mono hroles) ih

/-- Two names spell the two parts that they stand for. -/
theorem Spells.pair {left right : Symbol} {first second : Body} (hleft : Stands g roles left first)
    (hright : Stands g roles right second) :
    Spells g roles [left, right] (first ++ second) := by
  have h := Spells.cons hleft (.cons hright .nil)
  rwa [List.append_nil] at h

theorem Spells.terminal (c : Char) : Spells g roles [.terminal c] [.terminal c] :=
  .cons (.terminal c) .nil

/-! ### The invariant -/

/-- The symbol is declared and stands in some body. -/
def Used (g : Grammar) (symbol : Symbol) : Prop :=
  g.Declares symbol ∧ ∃ rule ∈ g.rules, symbol ∈ rule.body

/-- A role that a fresh name may be made up for. -/
structure Role.Fits (g : Grammar) (role : Role) : Prop where
  nonempty : role.meaning ≠ []
  used : ∀ symbol ∈ role.meaning, Used g symbol

/-- The rule spells an old rule of its head, or the meaning of the role that its head has. -/
def Justified (g : Grammar) (roles : List (Role × String)) (rule : Rule) : Prop :=
  (∃ old, ⟨rule.head, old⟩ ∈ g.keptRules ∧ Spells g roles rule.body old) ∨
    ∃ role, (role, rule.head) ∈ roles ∧ Spells g roles rule.body role.meaning

theorem Justified.mono (hroles : roles ⊆ roles') {rule : Rule} (h : Justified g roles rule) :
    Justified g roles' rule := by
  rcases h with ⟨old, hold, hspells⟩ | ⟨role, hrole, hspells⟩
  · exact .inl ⟨old, hold, hspells.mono hroles⟩
  · exact .inr ⟨role, hroles hrole, hspells.mono hroles⟩

/-- Fresh names are new and have one role each, and every rule is justified. -/
structure Sound (g : Grammar) (s : Splitting) : Prop where
  mem_taken : ∀ name, name ∈ s.supply.taken ↔ name ∈ g.nonTerminals ∨ name ∈ s.supply.issued
  mem_issued : ∀ name, name ∈ s.supply.issued ↔ ∃ role, (role, name) ∈ s.roles
  fresh : ∀ role name, (role, name) ∈ s.roles → name ∉ g.nonTerminals
  unique : ∀ role role' name, (role, name) ∈ s.roles → (role', name) ∈ s.roles → role = role'
  fits : ∀ role name, (role, name) ∈ s.roles → Role.Fits g role
  justified : ∀ rule ∈ s.rules, Justified g s.roles rule
  shape : ∀ rule ∈ s.rules, rule.body.IsSplit ∨ rule.body = [] ∧ g.goal = some rule.head

/-- The name has a rule that spells what its role means. -/
def Settled (g : Grammar) (s : Splitting) (role : Role) (name : String) : Prop :=
  ∃ body, ⟨name, body⟩ ∈ s.rules ∧ Spells g s.roles body role.meaning ∧ body.IsSplit

/-- The second state keeps what the first one has, and all roles that are new in it are settled. -/
structure Continues (g : Grammar) (s s' : Splitting) : Prop where
  sound : Sound g s'
  roles : s.roles ⊆ s'.roles
  rules : ∀ rule ∈ s.rules, rule ∈ s'.rules
  settled : ∀ role name, (role, name) ∈ s'.roles → (role, name) ∈ s.roles ∨ Settled g s' role name

variable {s s' s'' : Splitting}

theorem Settled.mono (hroles : s.roles ⊆ s'.roles) (hrules : ∀ rule ∈ s.rules, rule ∈ s'.rules)
    {role : Role} {name : String} (h : Settled g s role name) : Settled g s' role name := by
  obtain ⟨body, hrule, hspells, hshape⟩ := h
  exact ⟨body, hrules _ hrule, hspells.mono hroles, hshape⟩

theorem Continues.refl (hs : Sound g s) : Continues g s s :=
  ⟨hs, fun _ h => h, fun _ h => h, fun _ _ h => .inl h⟩

theorem Continues.trans (h : Continues g s s') (h' : Continues g s' s'') : Continues g s s'' where
  sound := h'.sound
  roles _ hentry := h'.roles (h.roles hentry)
  rules rule hrule := h'.rules rule (h.rules rule hrule)
  settled role name hentry := by
    rcases h'.settled role name hentry with hold | hnew
    · exact (h.settled role name hold).imp_right (·.mono h'.roles h'.rules)
    · exact .inr hnew

/-! ### The operations -/

theorem mem_of_lookup {role : Role} {name : String} (h : roles.lookup role = some name) :
    (role, name) ∈ roles := by
  obtain ⟨before, after, rfl, -⟩ := List.lookup_eq_some_iff.mp h
  simp

theorem mem_add {rule other : Rule} :
    other ∈ (s.add rule).rules ↔ other = rule ∨ other ∈ s.rules := by
  rw [add, Std.ExtTreeSet.mem_insert, Std.compare_eq_iff_eq, eq_comm]

theorem Sound.add (hs : Sound g s) {rule : Rule} (hrule : Justified g s.roles rule)
    (hshape : rule.body.IsSplit ∨ rule.body = [] ∧ g.goal = some rule.head) :
    Sound g (s.add rule) where
  mem_taken := hs.mem_taken
  mem_issued := hs.mem_issued
  fresh := hs.fresh
  unique := hs.unique
  fits := hs.fits
  justified other hother := by
    rcases mem_add.mp hother with rfl | hother
    · exact hrule
    · exact hs.justified other hother
  shape other hother := by
    rcases mem_add.mp hother with rfl | hother
    · exact hshape
    · exact hs.shape other hother

theorem Continues.add (hs : Sound g s) {rule : Rule} (hrule : Justified g s.roles rule)
    (hshape : rule.body.IsSplit ∨ rule.body = [] ∧ g.goal = some rule.head) :
    Continues g s (s.add rule) where
  sound := hs.add hrule hshape
  roles _ h := h
  rules _ h := mem_add.mpr (.inr h)
  settled _ _ h := .inl h

@[simp] theorem invent_roles (role : Role) :
    (s.invent role).2.roles = (role, (s.invent role).1) :: s.roles := rfl

theorem invent_not_mem_taken (role : Role) : (s.invent role).1 ∉ s.supply.taken :=
  s.supply.fresh_not_mem_taken role.base

theorem mem_invent_taken {role : Role} {name : String} :
    name ∈ (s.invent role).2.supply.taken ↔ name = (s.invent role).1 ∨ name ∈ s.supply.taken :=
  NameSupply.mem_fresh_taken

theorem mem_invent_issued {role : Role} {name : String} :
    name ∈ (s.invent role).2.supply.issued ↔ name ∈ s.supply.issued ∨ name = (s.invent role).1 := by
  simp [invent]

theorem Sound.invent (hs : Sound g s) {role : Role} (hrole : Role.Fits g role) :
    Sound g (s.invent role).2 := by
  have hnew := invent_not_mem_taken (s := s) role
  have hdeclared : (s.invent role).1 ∉ g.nonTerminals :=
    fun h => hnew ((hs.mem_taken _).mpr (.inl h))
  have hissued : ∀ other, (other, (s.invent role).1) ∉ s.roles :=
    fun other h => hnew ((hs.mem_taken _).mpr (.inr ((hs.mem_issued _).mpr ⟨other, h⟩)))
  have hgrow : s.roles ⊆ (s.invent role).2.roles := fun _ h => List.mem_cons_of_mem _ h
  refine ⟨?_, ?_, ?_, ?_, ?_, ?_, hs.shape⟩
  · intro name
    rw [mem_invent_taken, mem_invent_issued, hs.mem_taken]
    tauto
  · intro name
    rw [mem_invent_issued, hs.mem_issued, invent_roles]
    constructor
    · rintro (⟨other, h⟩ | rfl)
      · exact ⟨other, List.mem_cons_of_mem _ h⟩
      · exact ⟨role, List.mem_cons_self⟩
    · rintro ⟨other, h⟩
      rcases List.mem_cons.mp h with heq | h
      · exact .inr (Prod.mk.inj heq).2
      · exact .inl ⟨other, h⟩
  · intro other name h
    rcases List.mem_cons.mp h with heq | h
    · rw [(Prod.mk.inj heq).2]
      exact hdeclared
    · exact hs.fresh other name h
  · intro first second name hfirst hsecond
    rcases List.mem_cons.mp hfirst with heq | hfirst <;>
      rcases List.mem_cons.mp hsecond with heq' | hsecond
    · rw [(Prod.mk.inj heq).1, (Prod.mk.inj heq').1]
    · rw [(Prod.mk.inj heq).2] at hsecond
      exact absurd hsecond (hissued second)
    · rw [(Prod.mk.inj heq').2] at hfirst
      exact absurd hfirst (hissued first)
    · exact hs.unique first second name hfirst hsecond
  · intro other name h
    rcases List.mem_cons.mp h with heq | h
    · rw [(Prod.mk.inj heq).1]
      exact hrole
    · exact hs.fits other name h
  · intro rule hrule
    exact (hs.justified rule hrule).mono hgrow

/-- A name is made up for a role, and its rule follows once the work in between is done. -/
theorem Continues.invent {role : Role} {body : Body}
    (h : Continues g (s.invent role).2 s') (hspells : Spells g s'.roles body role.meaning)
    (hshape : body.IsSplit) : Continues g s (s'.add ⟨(s.invent role).1, body⟩) := by
  have hentry : (role, (s.invent role).1) ∈ s'.roles := h.roles List.mem_cons_self
  have hadd : Continues g s' (s'.add ⟨(s.invent role).1, body⟩) :=
    .add h.sound (.inr ⟨role, hentry, hspells⟩) (.inl hshape)
  refine ⟨hadd.sound, fun _ hold => h.roles (List.mem_cons_of_mem _ hold),
    fun rule hrule => hadd.rules rule (h.rules rule hrule), fun other name hother => ?_⟩
  rcases h.settled other name hother with hold | hsettled
  · rcases List.mem_cons.mp hold with heq | hold
    · obtain ⟨rfl, rfl⟩ := Prod.mk.inj heq
      exact .inr ⟨body, mem_add.mpr (.inl rfl), hspells, hshape⟩
    · exact .inl hold
  · exact .inr (hsettled.mono hadd.roles hadd.rules)

theorem lift_of_some {role : Char → Role} {c : Char} {name : String}
    (h : s.roles.lookup (role c) = some name) :
    s.lift role (.terminal c) = (.nonTerminal name, s) := by
  simp only [lift, h]

theorem lift_of_none {role : Char → Role} {c : Char} (h : s.roles.lookup (role c) = none) :
    s.lift role (.terminal c) =
      (.nonTerminal (s.invent (role c)).1,
        (s.invent (role c)).2.add ⟨(s.invent (role c)).1, [.terminal c]⟩) := by
  simp only [lift, h]

/-- Lifting gives a name that stands for the symbol. -/
theorem lift_spec (hs : Sound g s) (role : Char → Role)
    (hrole : ∀ c, (role c).meaning = [.terminal c]) {symbol : Symbol}
    (hsymbol : Used g symbol) :
    Continues g s (s.lift role symbol).2 ∧ ∃ name, (s.lift role symbol).1 = .nonTerminal name ∧
      Stands g (s.lift role symbol).2.roles (.nonTerminal name) [symbol] := by
  cases symbol with
  | nonTerminal name => exact ⟨.refl hs, name, rfl, .declared hsymbol.1⟩
  | terminal c =>
      cases hlookup : s.roles.lookup (role c) with
      | some name =>
          rw [lift_of_some hlookup]
          refine ⟨.refl hs, name, rfl, ?_⟩
          rw [← hrole c]
          exact .invented (mem_of_lookup hlookup)
      | none =>
          have hfits : Role.Fits g (role c) := by
            refine ⟨by simp [hrole], fun other hother => ?_⟩
            rw [hrole, List.mem_singleton] at hother
            subst hother
            exact hsymbol
          have hspells : Spells g (s.invent (role c)).2.roles [.terminal c] (role c).meaning := by
            rw [hrole]
            exact .terminal c
          rw [lift_of_none hlookup]
          refine ⟨.invent (.refl (hs.invent hfits)) hspells (.inl ⟨c, rfl⟩), _, rfl, ?_⟩
          rw [← hrole c]
          exact .invented List.mem_cons_self

theorem split_nil {first second : Symbol} :
    split first second [] s =
      ([(s.lift .bracket first).1, ((s.lift .bracket first).2.lift .bracket second).1],
        ((s.lift .bracket first).2.lift .bracket second).2) := rfl

theorem split_of_some {first second third : Symbol} {rest : Body} {name : String}
    (h : (s.lift .bracket first).2.roles.lookup (.remainder (second :: third :: rest)) =
      some name) :
    split first second (third :: rest) s =
      ([(s.lift .bracket first).1, .nonTerminal name], (s.lift .bracket first).2) := by
  simp only [split, h]

theorem split_of_none {first second third : Symbol} {rest : Body}
    (h : (s.lift .bracket first).2.roles.lookup (.remainder (second :: third :: rest)) = none) :
    split first second (third :: rest) s =
      let (name, inner) := (s.lift .bracket first).2.invent (.remainder (second :: third :: rest))
      let (body, outer) := split second third rest inner
      ([(s.lift .bracket first).1, .nonTerminal name], outer.add ⟨name, body⟩) := by
  simp only [split, h]

/-- Splitting gives two names that spell the symbols. -/
theorem split_spec (hs : Sound g s) {first second : Symbol} {rest : Body}
    (hused : ∀ symbol ∈ first :: second :: rest, Used g symbol) :
    Continues g s (split first second rest s).2 ∧ (split first second rest s).1.IsSplit ∧
      Spells g (split first second rest s).2.roles (split first second rest s).1
        (first :: second :: rest) := by
  induction rest generalizing first second s with
  | nil =>
      obtain ⟨hleft, left, hleftEq, hleftStands⟩ :=
        lift_spec hs .bracket (fun _ => rfl) (hused first (by simp))
      obtain ⟨hright, right, hrightEq, hrightStands⟩ :=
        lift_spec hleft.sound .bracket (fun _ => rfl) (hused second (by simp))
      rw [split_nil, hleftEq, hrightEq]
      exact ⟨hleft.trans hright, .inr ⟨left, right, rfl⟩,
        .pair (hleftStands.mono hright.roles) hrightStands⟩
  | cons third rest ih =>
      obtain ⟨hleft, left, hleftEq, hleftStands⟩ :=
        lift_spec hs .bracket (fun _ => rfl) (hused first (by simp))
      cases hlookup : (s.lift .bracket first).2.roles.lookup
          (.remainder (second :: third :: rest)) with
      | some name =>
          have hname := Stands.invented (g := g) (mem_of_lookup hlookup)
          rw [split_of_some hlookup, hleftEq]
          exact ⟨hleft, .inr ⟨left, name, rfl⟩, .pair hleftStands hname⟩
      | none =>
          have htail : ∀ symbol ∈ second :: third :: rest, Used g symbol :=
            fun symbol hsymbol => hused symbol (List.mem_cons_of_mem _ hsymbol)
          have hfits : Role.Fits g (.remainder (second :: third :: rest)) :=
            ⟨by simp [Role.meaning], htail⟩
          -- the name is given away before the rest is split, and its rule is added after that
          obtain ⟨hcont, hshape, hspells⟩ := ih (hleft.sound.invent hfits) htail
          have hadd := Continues.invent hcont hspells hshape
          have hname := Stands.invented (g := g) (hcont.roles List.mem_cons_self)
          rw [split_of_none hlookup, hleftEq]
          exact ⟨hleft.trans hadd, .inr ⟨left, _, rfl⟩, .pair (hleftStands.mono hadd.roles) hname⟩

/-! ### The whole table -/

/-- The table has a rule that spells the old one. -/
def Represents (g : Grammar) (s : Splitting) (rule : Rule) : Prop :=
  ∃ body, ⟨rule.head, body⟩ ∈ s.rules ∧ Spells g s.roles body rule.body

theorem Represents.mono (h : Continues g s s') {rule : Rule} (hrule : Represents g s rule) :
    Represents g s' rule := by
  obtain ⟨body, hbody, hspells⟩ := hrule
  exact ⟨body, h.rules _ hbody, hspells.mono h.roles⟩

/-- A body for an old rule is added under the head of that rule. -/
theorem Continues.add_kept {head : String} {old body : Body} (hkept : ⟨head, old⟩ ∈ g.keptRules)
    (h : Continues g s s') (hspells : Spells g s'.roles body old)
    (hshape : body.IsSplit ∨ body = [] ∧ g.goal = some head) :
    Continues g s (s'.add ⟨head, body⟩) ∧ Represents g (s'.add ⟨head, body⟩) ⟨head, old⟩ :=
  ⟨h.trans (.add h.sound (.inl ⟨old, hkept, hspells⟩) hshape),
    body, mem_add.mpr (.inl rfl), hspells⟩

theorem addSplit_pair {goal : Option String} {head : String} {first second : Symbol} :
    s.addSplit goal ⟨head, [first, second]⟩ =
      let (left, middle) := s.lift (.standIn head) first
      let (right, last) := middle.lift (.standIn head) second
      last.add ⟨head, [left, right]⟩ := by
  cases first <;> rfl

theorem addSplit_long {goal : Option String} {head : String} {first second third : Symbol}
    {rest : Body} :
    s.addSplit goal ⟨head, first :: second :: third :: rest⟩ =
      let (body, last) := split first second (third :: rest) s
      last.add ⟨head, body⟩ := by
  cases first <;> rfl

theorem addSplit_spec (hg : g.Closed) (hs : Sound g s) {rule : Rule} (hrule : rule ∈ g.rules) :
    Continues g s (s.addSplit g.goal rule) ∧
      (rule ∈ g.keptRules → Represents g (s.addSplit g.goal rule) rule) := by
  obtain ⟨head, old⟩ := rule
  have hused : ∀ symbol ∈ old, Used g symbol :=
    fun symbol hsymbol => ⟨hg.body _ hrule symbol hsymbol, _, hrule, hsymbol⟩
  match old with
  | [] =>
      by_cases hgoal : g.goal = some head
      · have hkept : ⟨head, []⟩ ∈ g.keptRules := mem_keptRules.mpr ⟨hrule, rfl, fun _ => hgoal⟩
        obtain ⟨hcont, hrep⟩ := Continues.add_kept hkept (.refl hs) .nil (.inr ⟨rfl, hgoal⟩)
        simp only [addSplit, if_pos hgoal]
        exact ⟨hcont, fun _ => hrep⟩
      · simp only [addSplit, if_neg hgoal]
        exact ⟨.refl hs, fun hkept => absurd ((mem_keptRules.mp hkept).2.2 rfl) hgoal⟩
  | [.terminal c] =>
      have hkept : ⟨head, [.terminal c]⟩ ∈ g.keptRules :=
        mem_keptRules.mpr ⟨hrule, rfl, fun h => absurd h (by simp)⟩
      obtain ⟨hcont, hrep⟩ :=
        Continues.add_kept hkept (.refl hs) (.terminal c) (.inl (.inl ⟨c, rfl⟩))
      exact ⟨hcont, fun _ => hrep⟩
  | [.nonTerminal name] =>
      refine ⟨.refl hs, fun hkept => ?_⟩
      exact absurd (mem_keptRules.mp hkept).2.1 (by simp [Body.isChain])
  | [first, second] =>
      have hkept : ⟨head, [first, second]⟩ ∈ g.keptRules :=
        mem_keptRules.mpr ⟨hrule, Body.isChain_cons_cons .., fun h => absurd h (by simp)⟩
      obtain ⟨hleft, left, hleftEq, hleftStands⟩ :=
        lift_spec hs (.standIn head) (fun _ => rfl) (hused first (by simp))
      obtain ⟨hright, right, hrightEq, hrightStands⟩ :=
        lift_spec hleft.sound (.standIn head) (fun _ => rfl) (hused second (by simp))
      obtain ⟨hcont, hrep⟩ := Continues.add_kept hkept (hleft.trans hright)
        (.pair (hleftStands.mono hright.roles) hrightStands) (.inl (.inr ⟨left, right, rfl⟩))
      rw [← hleftEq, ← hrightEq] at hcont hrep
      rw [addSplit_pair]
      exact ⟨hcont, fun _ => hrep⟩
  | first :: second :: third :: rest =>
      have hkept : ⟨head, first :: second :: third :: rest⟩ ∈ g.keptRules :=
        mem_keptRules.mpr ⟨hrule, Body.isChain_cons_cons .., fun h => absurd h (by simp)⟩
      obtain ⟨hsplit, hshape, hspells⟩ := split_spec hs hused
      obtain ⟨hcont, hrep⟩ := Continues.add_kept hkept hsplit hspells (.inl hshape)
      rw [addSplit_long]
      exact ⟨hcont, fun _ => hrep⟩

theorem foldl_addSplit_spec (hg : g.Closed) (hs : Sound g s) {rules : List Rule}
    (hrules : ∀ rule ∈ rules, rule ∈ g.rules) :
    Continues g s (rules.foldl (addSplit g.goal) s) ∧
      ∀ rule ∈ rules, rule ∈ g.keptRules → Represents g (rules.foldl (addSplit g.goal) s) rule := by
  induction rules generalizing s with
  | nil => exact ⟨.refl hs, fun rule hrule => absurd hrule List.not_mem_nil⟩
  | cons rule rules ih =>
      obtain ⟨hfirst, hrep⟩ := addSplit_spec hg hs (hrules rule List.mem_cons_self)
      obtain ⟨hrest, hreps⟩ :=
        ih hfirst.sound fun other hother => hrules other (List.mem_cons_of_mem _ hother)
      refine ⟨hfirst.trans hrest, fun other hother hkept => ?_⟩
      rcases List.mem_cons.mp hother with rfl | hother
      · exact (hrep hkept).mono hrest
      · exact hreps other hother hkept

/-- The state before the first rule. -/
theorem sound_start (g : Grammar) : Sound g { supply := { taken := g.nonTerminals } } where
  mem_taken name := by simp
  mem_issued name := by simp
  fresh := by simp
  unique := by simp
  fits := by simp
  justified := by simp
  shape := by simp

end Splitting

open Splitting

/-- The Chomsky form is what splitting all rules leaves, with every role settled and every kept
rule represented. -/
theorem exists_splitting {g : Grammar} (hg : g.Closed) :
    ∃ s : Splitting, Sound g s ∧
      (∀ role name, (role, name) ∈ s.roles → Settled g s role name) ∧
      (∀ rule ∈ g.keptRules, Represents g s rule) ∧
      g.toChomsky =
        { g with nonTerminals := g.nonTerminals.insertMany s.supply.issued, rules := s.rules } := by
  obtain ⟨hcont, hrep⟩ := foldl_addSplit_spec hg (sound_start g)
    (fun rule hrule => Std.ExtTreeSet.mem_toList.mp hrule)
  refine ⟨_, hcont.sound, fun role name hrole => ?_, fun rule hkept => ?_, rfl⟩
  · exact (hcont.settled role name hrole).resolve_left List.not_mem_nil
  · exact hrep rule (Std.ExtTreeSet.mem_toList.mpr (mem_keptRules.mp hkept).1) hkept

end FormalLanguages.Grammar
