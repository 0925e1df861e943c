import FormalLanguages.Grammar.SymbolSets
import FormalLanguages.Proofs.Loops
import FormalLanguages.Proofs.Rewriting
import Mathlib.Tactic.ByContra

/-!
What the sets of symbols of a rule table mean. Saturation finds the least set of names that has
every head one of whose bodies it covers. Hence the generating names are those that derive a
chain, and the nullable ones those that derive the empty chain. An exploration finds nothing but
symbols that occur in the forms of the goal, and leaves out only what the names that are still to be
looked at lead to; where it rests there are none of these.
-/

namespace FormalLanguages.RuleTable

open Relation

variable {rules : RuleTable}

/-! ### Saturation -/

theorem all_isCovered_iff {free : Symbol → Bool} {known : Std.ExtTreeSet String} {body : Body} :
    body.all (isCovered free known) = true ↔
      (∀ c, .terminal c ∈ body → free (.terminal c) = true) ∧
        ∀ name, .nonTerminal name ∈ body → free (.nonTerminal name) = true ∨ name ∈ known := by
  rw [List.all_eq_true]
  constructor
  · intro h
    refine ⟨fun c hc => h _ hc, fun name hname => ?_⟩
    simpa [isCovered] using h _ hname
  · rintro ⟨hterminal, hname⟩ symbol hsymbol
    cases symbol with
    | terminal c => exact hterminal c hsymbol
    | nonTerminal name => simpa [isCovered] using hname name hsymbol

/-- A property that the rules pass on from covered bodies to their heads holds of all that
saturation adds. -/
theorem of_mem_saturate {free : Symbol → Bool} {P : String → Prop}
    (hstep : ∀ name body, ⟨name, body⟩ ∈ rules →
      (∀ c, .terminal c ∈ body → free (.terminal c) = true) →
      (∀ other, .nonTerminal other ∈ body → free (.nonTerminal other) = true ∨ P other) → P name)
    {known : Std.ExtTreeSet String} (hknown : ∀ name ∈ known, P name) {name : String}
    (hname : name ∈ saturate free rules known) : P name := by
  fun_induction saturate free rules known with
  | case1 known hdone => exact hknown name hname
  | case2 known hnew ih =>
      refine ih (fun other hother => ?_) hname
      rw [Std.ExtTreeSet.mem_insertMany_list, List.contains_iff_mem] at hother
      rcases hother with hother | hother
      · exact hknown other hother
      · obtain ⟨-, body, hrule, hbody⟩ := mem_newlyCovered.mp hother
        obtain ⟨hterminal, hnames⟩ := all_isCovered_iff.mp hbody
        exact hstep other body hrule hterminal fun n hn => (hnames n hn).imp_right (hknown n)

/-- Saturation leaves no head out whose body it covers. -/
theorem mem_saturate_of_rule {free : Symbol → Bool} {known : Std.ExtTreeSet String}
    {name : String} {body : Body} (hrule : ⟨name, body⟩ ∈ rules)
    (hbody : body.all (isCovered free (saturate free rules known)) = true) :
    name ∈ saturate free rules known := by
  fun_induction saturate free rules known with
  | case1 known hdone =>
      by_contra hunknown
      have hnew : name ∈ newlyCovered free rules known :=
        mem_newlyCovered.mpr ⟨hunknown, body, hrule, hbody⟩
      rw [hdone] at hnew
      exact List.not_mem_nil hnew
  | case2 known hnew ih => exact ih hbody

/-! ### Names that derive something -/

/-- The generating names are those that derive some chain. -/
theorem mem_generating_iff {name : String} :
    name ∈ rules.generating ↔ ∃ chain, rules.Derives name chain := by
  constructor
  · refine of_mem_saturate (P := fun name => ∃ chain, rules.Derives name chain) ?_ (by simp)
    intro name body hrule _ hnames
    have hparts : ∀ other, .nonTerminal other ∈ body → ∃ part, rules.Derives other part :=
      fun other hother => (hnames other hother).resolve_left (by simp [Symbol.isTerminal])
    obtain ⟨chain, hchain⟩ := Body.Reads.exists_of_forall hparts
    exact ⟨chain, derives_of_rule hrule hchain⟩
  · rintro ⟨chain, hchain⟩
    refine derives_induction (I := fun name _ => name ∈ rules.generating) ?_ hchain
    intro name body chain hrule hbody
    refine mem_saturate_of_rule hrule (all_isCovered_iff.mpr ⟨fun c _ => rfl, ?_⟩)
    intro other hother
    obtain ⟨part, -, hpart⟩ := hbody.exists_of_mem hother
    exact .inr hpart

/-- The nullable names are those that derive the empty chain. -/
theorem mem_nullable_iff {name : String} :
    name ∈ rules.nullable ↔ rules.Derives name [] := by
  constructor
  · refine of_mem_saturate (P := fun name => rules.Derives name []) ?_ (by simp)
    intro name body hrule hterminal hnames
    refine derives_of_rule hrule ?_
    clear hrule
    induction body with
    | nil => exact rfl
    | cons symbol body ih =>
        have hrest := ih (fun c hc => hterminal c (List.mem_cons_of_mem _ hc))
          fun other hother => hnames other (List.mem_cons_of_mem _ hother)
        cases symbol with
        | terminal c => exact absurd (hterminal c List.mem_cons_self) (by simp)
        | nonTerminal other =>
            have hother := (hnames other List.mem_cons_self).resolve_left (by simp)
            exact ⟨[], [], rfl, hother, hrest⟩
  · intro h
    refine derives_induction (I := fun name chain => chain = [] → name ∈ rules.nullable) ?_ h rfl
    rintro name body chain hrule hbody rfl
    refine mem_saturate_of_rule hrule (List.all_eq_true.mpr fun symbol hsymbol => ?_)
    clear hrule
    obtain ⟨before, after, rfl⟩ := List.append_of_mem hsymbol
    obtain ⟨first, second, hchain, -, hsecond⟩ := Body.Reads.append_iff.mp hbody
    obtain ⟨rfl, rfl⟩ := List.append_eq_nil_iff.mp hchain.symm
    cases symbol with
    | terminal c =>
        obtain ⟨rest, hrest, -⟩ := hsecond
        exact absurd hrest (List.cons_ne_nil c rest).symm
    | nonTerminal other =>
        obtain ⟨part, rest, hrest, ⟨-, hpart⟩, -⟩ := hsecond
        have hmem : other ∈ rules.nullable := hpart (List.append_eq_nil_iff.mp hrest.symm).1
        rw [nullable] at hmem
        simpa [isCovered] using hmem

/-! ### Symbols that occur -/

namespace Exploration

/-- The symbol has been found. -/
def Has (e : Exploration) : Symbol → Prop
  | .terminal c => c ∈ e.letters
  | .nonTerminal name => name ∈ e.names

variable {e e' : Exploration} {goal name : String} {symbol other : Symbol} {symbols : List Symbol}

theorem has_start_iff : (start goal).Has symbol ↔ symbol = .nonTerminal goal := by
  cases symbol with
  | terminal c => simp [start, Has]
  | nonTerminal name =>
      simp only [start, Has, Std.ExtTreeSet.singleton_eq_insert, Std.ExtTreeSet.mem_insert,
        Std.ExtTreeSet.not_mem_empty, Std.compare_eq_iff_eq, Symbol.nonTerminal.injEq, or_false]
      exact eq_comm

theorem has_note_iff : (e.note symbol).Has other ↔ e.Has other ∨ other = symbol := by
  cases symbol with
  | terminal c =>
      cases other with
      | terminal d =>
          simp only [note, Has, Std.ExtTreeSet.mem_insert, Std.compare_eq_iff_eq,
            Symbol.terminal.injEq]
          rw [or_comm, @eq_comm _ c d]
      | nonTerminal other => simp [note, Has]
  | nonTerminal name =>
      simp only [note]
      split
      · -- the name has been found before
        rename_i hknown
        refine ⟨.inl, fun h => h.elim id ?_⟩
        rintro rfl
        exact hknown
      · cases other with
        | terminal d => simp [Has]
        | nonTerminal other =>
            simp only [Has, Std.ExtTreeSet.mem_insert, Std.compare_eq_iff_eq,
              Symbol.nonTerminal.injEq]
            rw [or_comm, @eq_comm _ name other]

theorem has_foldl_note_iff :
    (symbols.foldl note e).Has other ↔ e.Has other ∨ other ∈ symbols := by
  induction symbols generalizing e with
  | nil => simp
  | cons symbol symbols ih => rw [List.foldl_cons, ih, has_note_iff, List.mem_cons, or_assoc]

theorem mem_pending_note_iff : name ∈ (e.note symbol).pending ↔
    name ∈ e.pending ∨ symbol = .nonTerminal name ∧ ¬ e.Has (.nonTerminal name) := by
  cases symbol with
  | terminal c => simp [note]
  | nonTerminal found =>
      simp only [note, Has, Symbol.nonTerminal.injEq]
      split
      · rename_i hknown
        refine ⟨.inl, fun h => h.elim id ?_⟩
        rintro ⟨rfl, hnew⟩
        exact absurd hknown hnew
      · rename_i hnew
        rw [List.mem_cons, or_comm]
        refine or_congr_right ⟨?_, fun h => h.1.symm⟩
        rintro rfl
        exact ⟨rfl, hnew⟩

/-- The names that noting leaves to be looked at are those that it finds for the first time, besides
those that were left before. -/
theorem mem_pending_foldl_note_iff : name ∈ (symbols.foldl note e).pending ↔
    name ∈ e.pending ∨ .nonTerminal name ∈ symbols ∧ ¬ e.Has (.nonTerminal name) := by
  induction symbols generalizing e with
  | nil => simp
  | cons symbol symbols ih =>
      rw [List.foldl_cons, ih, mem_pending_note_iff, has_note_iff, List.mem_cons]
      grind

theorem has_lookAt_iff {head : String} : (e.lookAt rules head).Has symbol ↔
    e.Has symbol ∨ ∃ body, ⟨head, body⟩ ∈ rules ∧ symbol ∈ body := by
  rw [lookAt, has_foldl_note_iff]
  simp only [List.mem_flatten, mem_bodies]

theorem mem_pending_lookAt_iff {head : String} : name ∈ (e.lookAt rules head).pending ↔
    name ∈ e.pending ∨ (∃ body, ⟨head, body⟩ ∈ rules ∧ .nonTerminal name ∈ body) ∧
      ¬ e.Has (.nonTerminal name) := by
  rw [lookAt, mem_pending_foldl_note_iff]
  simp only [List.mem_flatten, mem_bodies]

/-- Whatever has been found occurs in the forms of the goal, and only the bodies of the names that
are still to be looked at can have symbols that have not been found. -/
structure Tracks (rules : RuleTable) (goal : String) (e : Exploration) : Prop where
  has_goal : e.Has (.nonTerminal goal)
  occurs : ∀ symbol, e.Has symbol → rules.Occurs goal symbol
  pending : ∀ name ∈ e.pending, e.Has (.nonTerminal name)
  covered : ∀ name, e.Has (.nonTerminal name) → name ∈ e.pending ∨
    ∀ body, ⟨name, body⟩ ∈ rules → ∀ symbol ∈ body, e.Has symbol

theorem tracks_start (rules : RuleTable) (goal : String) : (start goal).Tracks rules goal where
  has_goal := has_start_iff.mpr rfl
  occurs symbol h := by
    obtain rfl := has_start_iff.mp h
    exact ⟨_, .refl, List.mem_singleton_self _⟩
  pending name hname := by
    obtain rfl : name = goal := by simpa [start] using hname
    exact has_start_iff.mpr rfl
  covered name h := by
    obtain rfl : name = goal := by simpa using has_start_iff.mp h
    exact .inl (List.mem_singleton_self _)

/-- What the bodies of a name are short of is found when it is looked at. -/
theorem Tracks.next? (h : e.Tracks rules goal) (hnext : e.next? rules = some e') :
    e'.Tracks rules goal := by
  obtain ⟨head, pending, hpending, rfl⟩ := next?_eq_some_iff.mp hnext
  have hhead : e.Has (.nonTerminal head) := h.pending head (by simp [hpending])
  -- what has been found does not depend on what is still to be looked at
  have hhas (symbol : Symbol) : ({ e with pending }.lookAt rules head).Has symbol ↔
      e.Has symbol ∨ ∃ body, ⟨head, body⟩ ∈ rules ∧ symbol ∈ body := has_lookAt_iff
  have hleft (name : String) : name ∈ ({ e with pending }.lookAt rules head).pending ↔
      name ∈ pending ∨ (∃ body, ⟨head, body⟩ ∈ rules ∧ .nonTerminal name ∈ body) ∧
        ¬ e.Has (.nonTerminal name) := mem_pending_lookAt_iff
  refine ⟨(hhas _).mpr (.inl h.has_goal), fun symbol hsymbol => ?_, fun name hname => ?_,
    fun name hname => ?_⟩
  · rcases (hhas symbol).mp hsymbol with hsymbol | ⟨body, hrule, hbody⟩
    · exact h.occurs symbol hsymbol
    · exact (h.occurs _ hhead).of_rule hrule hbody
  · rcases (hleft name).mp hname with hname | ⟨hfound, -⟩
    · exact (hhas _).mpr (.inl (h.pending name (by simp [hpending, hname])))
    · exact (hhas _).mpr (.inr hfound)
  · by_cases hknown : e.Has (.nonTerminal name)
    · rcases h.covered name hknown with hname | hcovered
      · rw [hpending, List.mem_cons] at hname
        rcases hname with rfl | hname
        · exact .inr fun body hrule symbol hsymbol =>
            (hhas symbol).mpr (.inr ⟨body, hrule, hsymbol⟩)
        · exact .inl ((hleft name).mpr (.inl hname))
      · exact .inr fun body hrule symbol hsymbol =>
          (hhas symbol).mpr (.inl (hcovered body hrule symbol hsymbol))
    · have hfound := ((hhas _).mp hname).resolve_left hknown
      exact .inl ((hleft name).mpr (.inr ⟨hfound, hknown⟩))

/-- Where nothing is left to be looked at, all symbols have been found. -/
theorem Tracks.has_iff (h : e.Tracks rules goal) (hrest : e.pending = []) :
    e.Has symbol ↔ rules.Occurs goal symbol := by
  have hcovered {name : String} (hname : e.Has (.nonTerminal name)) :
      ∀ body, ⟨name, body⟩ ∈ rules → ∀ symbol ∈ body, e.Has symbol :=
    (h.covered name hname).resolve_left (by simp [hrest])
  refine ⟨h.occurs symbol, fun hoccurs => ?_⟩
  rcases occurs_iff.mp hoccurs with rfl | ⟨head, body, hpath, hrule, hsymbol⟩
  · exact h.has_goal
  · have hhead : e.Has (.nonTerminal head) := by
      clear hrule
      induction hpath with
      | refl => exact h.has_goal
      | tail _ hrefers ih =>
          obtain ⟨body, hrule, hname⟩ := hrefers
          exact hcovered ih body hrule _ hname
    exact hcovered hhead body hrule symbol hsymbol

theorem Tracks.has_explore_iff (h : e.Tracks rules goal) (symbol : Symbol) :
    (explore rules e).Has symbol ↔ rules.Occurs goal symbol := by
  fun_induction explore rules e with
  | case1 e hrest => exact h.has_iff (next?_eq_none_iff.mp hrest)
  | case2 e e' hnext ih => exact ih (h.next? hnext)

end Exploration

/-- The reachable names are those that occur in the forms of the goal. -/
theorem mem_reachable_iff {goal name : String} :
    name ∈ rules.reachable goal ↔ rules.Occurs goal (.nonTerminal name) :=
  (Exploration.tracks_start rules goal).has_explore_iff (.nonTerminal name)

theorem mem_reachable_iff_refers {goal name : String} :
    name ∈ rules.reachable goal ↔ ReflTransGen rules.Refers goal name :=
  mem_reachable_iff.trans occurs_nonTerminal_iff

/-- The reachable letters are those that occur in the forms of the goal. -/
theorem mem_reachableLetters_iff {goal : String} {c : Char} :
    c ∈ rules.reachableLetters goal ↔ rules.Occurs goal (.terminal c) :=
  (Exploration.tracks_start rules goal).has_explore_iff (.terminal c)

/-! ### Rounds -/

/-- One round of a saturation, as long as it adds a head. -/
def extend? (free : Symbol → Bool) (rules : RuleTable) (known : Std.ExtTreeSet String) :
    Option (Std.ExtTreeSet String) :=
  if newlyCovered free rules known = [] then none
  else some (known.insertMany (newlyCovered free rules known))

theorem extend?_eq_none_iff {free : Symbol → Bool} {known : Std.ExtTreeSet String} :
    extend? free rules known = none ↔ newlyCovered free rules known = [] := by
  simp [extend?]

theorem extend?_eq_some_iff {free : Symbol → Bool} {known known' : Std.ExtTreeSet String} :
    extend? free rules known = some known' ↔ newlyCovered free rules known ≠ [] ∧
      known.insertMany (newlyCovered free rules known) = known' := by
  simp [extend?]

/-- A saturation rests after no more rounds than there are rules with an unknown head. -/
theorem exists_rests_saturate (free : Symbol → Bool) (rules : RuleTable)
    (known : Std.ExtTreeSet String) :
    ∃ n ≤ (rules.toList.filter (·.head ∉ known)).length,
      Rests (extend? free rules) n known (saturate free rules known) := by
  have hless (known known' : Std.ExtTreeSet String) (h : extend? free rules known = some known') :
      (rules.toList.filter (·.head ∉ known')).length <
        (rules.toList.filter (·.head ∉ known)).length := by
    obtain ⟨hnew, rfl⟩ := extend?_eq_some_iff.mp h
    exact length_unknown_lt hnew
  refine exists_rests hless (fun known h => ?_) (fun known known' h => ?_) known
  · rw [saturate, if_pos (extend?_eq_none_iff.mp h)]
  · obtain ⟨hnew, rfl⟩ := extend?_eq_some_iff.mp h
    rw [saturate, if_neg hnew]

theorem exists_rests_explore (rules : RuleTable) (e : Exploration) :
    ∃ n ≤ e.ahead rules, Rests (Exploration.next? rules) n e (explore rules e) := by
  have hless (e e' : Exploration) (h : e.next? rules = some e') :
      e'.ahead rules < e.ahead rules := Exploration.ahead_lt_of_next? h
  refine exists_rests hless (fun e h => ?_) (fun e e' h => ?_) e
  · rw [explore]
    split <;> simp_all
  · rw [explore]
    split <;> simp_all

/-- The three sets of symbols are what they are said to be, whatever the table is, and each of the
three loops that find them rests: the first two after no more rounds than there are rules, the
third one after no more than there are mentions of names in bodies, and one. -/
theorem symbolSets_exact (rules : RuleTable) (goal : String) :
    (∀ name, name ∈ rules.generating ↔ ∃ chain, rules.Derives name chain) ∧
    (∀ name, name ∈ rules.nullable ↔ rules.Derives name []) ∧
    (∀ name, name ∈ rules.reachable goal ↔ rules.Occurs goal (.nonTerminal name)) ∧
    (∀ c, c ∈ rules.reachableLetters goal ↔ rules.Occurs goal (.terminal c)) ∧
    (∃ n ≤ rules.toList.length, Rests (extend? Symbol.isTerminal rules) n ∅ rules.generating) ∧
    (∃ n ≤ rules.toList.length, Rests (extend? (fun _ => false) rules) n ∅ rules.nullable) ∧
    ∃ n ≤ (Exploration.mentions rules).length + 1, ∃ last,
      Rests (Exploration.next? rules) n (.start goal) last ∧
        last.names = rules.reachable goal ∧ last.letters = rules.reachableLetters goal := by
  refine ⟨fun _ => mem_generating_iff, fun _ => mem_nullable_iff, fun _ => mem_reachable_iff,
    fun _ => mem_reachableLetters_iff, ?_, ?_, ?_⟩
  · obtain ⟨n, hn, hrests⟩ := exists_rests_saturate Symbol.isTerminal rules ∅
    exact ⟨n, Nat.le_trans hn (List.length_filter_le _ _), hrests⟩
  · obtain ⟨n, hn, hrests⟩ := exists_rests_saturate (fun _ => false) rules ∅
    exact ⟨n, Nat.le_trans hn (List.length_filter_le _ _), hrests⟩
  · obtain ⟨n, hn, hrests⟩ := exists_rests_explore rules (.start goal)
    have hahead : (Exploration.start goal).ahead rules ≤ (Exploration.mentions rules).length + 1 :=
      Nat.add_le_add_right (List.length_filter_le _ _) 1
    exact ⟨n, Nat.le_trans hn hahead, _, hrests, rfl, rfl⟩

-- two names that lead to each other, one without rules and one that nothing leads to
example :
    let rules : RuleTable := .ofList [Rule.mk "S" [.terminal 'a', .nonTerminal "A"],
      Rule.mk "A" [.nonTerminal "S", .nonTerminal "B"], Rule.mk "C" []]
    (rules.reachable "S").toList = ["A", "B", "S"] := by
  decide +kernel

end FormalLanguages.RuleTable
