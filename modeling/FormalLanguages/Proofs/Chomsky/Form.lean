import FormalLanguages.Proofs.Canonical.Idempotence
import FormalLanguages.Proofs.Chomsky.FreshHeads
import FormalLanguages.Proofs.Chomsky.Languages
import Mathlib.Logic.ExistsUnique

/-!
The Chomsky form as a form. A table that has the shape already is split into itself, so the form is
reached in one go. It is canonical when the grammar was: what has occurred below the goal still
does, as a new body leads to all symbols that it spells, and every fresh name occurs and derives a
chain of what it stands for.
-/

namespace FormalLanguages.Grammar

open Relation RuleTable

variable {g g' : Grammar}

/-! ### Tables in the form -/

namespace Splitting

variable {s : Splitting} {goal : Option String}

/-- A body that needs no splitting is added as it is. -/
theorem addSplit_eq_add {rule : Rule}
    (h : rule.body.IsSplit ∨ rule.body = [] ∧ goal = some rule.head) :
    s.addSplit goal rule = s.add rule := by
  obtain ⟨head, body⟩ := rule
  simp only at h
  rcases h with (⟨c, rfl⟩ | ⟨left, right, rfl⟩) | ⟨rfl, hgoal⟩
  · rfl
  · rfl
  · simp only [addSplit, if_pos hgoal]

theorem foldl_addSplit_of_shape {rules : List Rule}
    (h : ∀ rule ∈ rules, rule.body.IsSplit ∨ rule.body = [] ∧ goal = some rule.head) :
    (rules.foldl (addSplit goal) s).supply = s.supply ∧
      ∀ rule, rule ∈ (rules.foldl (addSplit goal) s).rules ↔ rule ∈ s.rules ∨ rule ∈ rules := by
  induction rules generalizing s with
  | nil => simp
  | cons first rules ih =>
      have hrest := ih (s := s.add first) fun rule hrule => h rule (List.mem_cons_of_mem _ hrule)
      rw [List.foldl_cons, addSplit_eq_add (h first List.mem_cons_self)]
      refine ⟨hrest.1, fun rule => ?_⟩
      rw [hrest.2, mem_add, List.mem_cons]
      tauto

end Splitting

open Splitting

/-- A grammar that has the shape of the Chomsky form is its own Chomsky form. -/
theorem toChomsky_eq_self
    (h : ∀ rule ∈ g.rules, rule.body.IsSplit ∨ rule.body = [] ∧ g.goal = some rule.head) :
    g.toChomsky = g := by
  obtain ⟨hsupply, hrules⟩ := foldl_addSplit_of_shape
    (s := { supply := { taken := g.nonTerminals } })
    fun rule hrule => h rule (Std.ExtTreeSet.mem_toList.mp hrule)
  refine eq_of_forall_mem (fun c => Iff.rfl) (fun name => ?_) rfl fun rule => ?_
  · simp [toChomsky, hsupply]
  · simp [toChomsky, hrules]

/-! ### Symbols that occur -/

namespace Splitting

variable {s : Splitting} {goal : String}

/-- The symbols that a body spells occur where its own symbols and the meanings of its fresh names
do. -/
theorem Spells.occurs {rules : RuleTable} {roles : List (Role × String)} {body old : Body}
    (h : Spells g roles body old) (hbody : ∀ symbol ∈ body, rules.Occurs goal symbol)
    (hroles : ∀ role name, (role, name) ∈ roles → .nonTerminal name ∈ body →
      ∀ symbol ∈ role.meaning, rules.Occurs goal symbol) {symbol : Symbol}
    (hsymbol : symbol ∈ old) : rules.Occurs goal symbol := by
  induction h with
  | nil => exact absurd hsymbol List.not_mem_nil
  | cons hstands _ ih =>
      rcases List.mem_append.mp hsymbol with hpart | hrest
      · cases hstands with
        | terminal c =>
            obtain rfl := List.mem_singleton.mp hpart
            exact hbody _ List.mem_cons_self
        | declared hname =>
            obtain rfl := List.mem_singleton.mp hpart
            exact hbody _ List.mem_cons_self
        | invented hrole => exact hroles _ _ hrole List.mem_cons_self symbol hpart
      · exact ih (fun other hother => hbody other (List.mem_cons_of_mem _ hother))
          (fun role name hrole hname => hroles role name hrole (List.mem_cons_of_mem _ hname)) hrest

/-- Below a fresh name occurs what it stands for. -/
theorem Sound.occurs_of_role (hs : Sound g s)
    (hsettled : ∀ role name, (role, name) ∈ s.roles → Settled g s role name) {role : Role}
    {name : String} (hrole : (role, name) ∈ s.roles)
    (hname : s.rules.Occurs goal (.nonTerminal name)) {symbol : Symbol}
    (hsymbol : symbol ∈ role.meaning) : s.rules.Occurs goal symbol := by
  induction hlength : role.meaning.length using Nat.strongRecOn generalizing role name symbol with
  | ind length ih =>
    subst hlength
    obtain ⟨body, hrule, hspells, hshape⟩ := hsettled role name hrole
    have hbody : ∀ symbol ∈ body, s.rules.Occurs goal symbol :=
      fun _ hsymbol => hname.of_rule hrule hsymbol
    refine hspells.occurs hbody (fun other fresh hother hfresh part hpart => ?_) hsymbol
    have hshorter := hspells.length_meaning_lt hs hshape hother hfresh
    exact ih _ hshorter hother (hbody _ hfresh) hpart rfl

end Splitting

/-- What occurs below the goal through kept rules occurs below it in the Chomsky form. -/
theorem occurs_toChomsky (hg : g.Closed) {goal : String} {symbol : Symbol}
    (h : g.keptRules.Occurs goal symbol) : g.toChomsky.rules.Occurs goal symbol := by
  obtain ⟨s, hs, hsettled, hrepresents, heq⟩ := exists_splitting hg
  rw [heq]
  have hstep {head : String} {old : Body} (hhead : s.rules.Occurs goal (.nonTerminal head))
      (hrule : ⟨head, old⟩ ∈ g.keptRules) {symbol : Symbol} (hsymbol : symbol ∈ old) :
      s.rules.Occurs goal symbol := by
    obtain ⟨body, hbody, hspells⟩ := hrepresents _ hrule
    have hoccurs : ∀ symbol ∈ body, s.rules.Occurs goal symbol :=
      fun _ hsymbol => hhead.of_rule hbody hsymbol
    refine hspells.occurs hoccurs (fun role name hrole hname part hpart => ?_) hsymbol
    exact hs.occurs_of_role hsettled hrole (hoccurs _ hname) hpart
  have hpath {name : String} (hname : ReflTransGen g.keptRules.Refers goal name) :
      s.rules.Occurs goal (.nonTerminal name) := by
    induction hname with
    | refl => exact occurs_nonTerminal_iff.mpr .refl
    | tail _ hrefers ih =>
        obtain ⟨old, hrule, hmem⟩ := hrefers
        exact hstep ih hrule hmem
  rcases occurs_iff.mp h with rfl | ⟨head, old, hhead, hrule, hmem⟩
  · exact hpath .refl
  · exact hstep (hpath hhead) hrule hmem

/-! ### Fresh names -/

/-- A fresh name of the Chomsky form has a body, and derives what its meaning reads. -/
theorem exists_meaning_toChomsky (hg : g.Closed) {name : String}
    (hname : name ∈ g.toChomsky.nonTerminals) (hfresh : name ∉ g.nonTerminals) :
    (∃ body, ⟨name, body⟩ ∈ g.toChomsky.rules) ∧
      ∃ meaning : Body, (∀ symbol ∈ meaning, g.Declares symbol) ∧
        ∀ chain, meaning.Reads g.toChomsky.rules.Derives chain →
          g.toChomsky.rules.Derives name chain := by
  obtain ⟨s, hs, hsettled, -, heq⟩ := exists_splitting hg
  rw [heq, Std.ExtTreeSet.mem_insertMany_list, List.contains_iff_mem] at hname
  obtain ⟨role, hrole⟩ := (hs.mem_issued name).mp (hname.resolve_left hfresh)
  obtain ⟨body, hrule, -⟩ := hsettled role name hrole
  rw [heq]
  refine ⟨⟨body, hrule⟩, role.meaning, fun symbol hsymbol => ?_, fun chain hchain => ?_⟩
  · exact ((hs.fits role name hrole).used symbol hsymbol).1
  · exact hs.derives_of_role hsettled hrole hchain

/-- A fresh name of the Chomsky form has exactly one body. -/
theorem existsUnique_body_toChomsky (hg : g.Closed) {name : String}
    (hname : name ∈ g.toChomsky.nonTerminals) (hfresh : name ∉ g.nonTerminals) :
    ∃! body, ⟨name, body⟩ ∈ g.toChomsky.rules := by
  obtain ⟨⟨body, hbody⟩, -⟩ := exists_meaning_toChomsky hg hname hfresh
  exact ⟨body, hbody, fun other hother => eq_of_mem_toChomsky hg hfresh hother hbody⟩

/-! ### Canonical grammars -/

namespace IsCanonical

variable {goal : String}

theorem exists_derives_toChomsky (h : g.IsCanonical goal) {name : String}
    (hname : name ∈ g.toChomsky.nonTerminals) :
    ∃ chain, g.toChomsky.rules.Derives name chain := by
  have hdeclared {name : String} (hname : name ∈ g.nonTerminals) :
      ∃ chain, g.toChomsky.rules.Derives name chain := by
    obtain ⟨chain, hchain⟩ := h.derives name hname
    exact ⟨chain, (h.derives_toChomsky_iff hname).mpr hchain⟩
  by_cases hold : name ∈ g.nonTerminals
  · exact hdeclared hold
  · obtain ⟨-, meaning, hmeaning, hreads⟩ := exists_meaning_toChomsky h.closed hname hold
    obtain ⟨chain, hchain⟩ := Body.Reads.exists_of_forall
      fun other hother => hdeclared (hmeaning (.nonTerminal other) hother)
    exact ⟨chain, hreads chain hchain⟩

theorem occurs_toChomsky (h : g.IsCanonical goal) {symbol : Symbol}
    (hsymbol : g.rules.Occurs goal symbol) : g.toChomsky.rules.Occurs goal symbol := by
  rw [← h.keptRules_eq] at hsymbol
  exact Grammar.occurs_toChomsky h.closed hsymbol

/-- The Chomsky form of a canonical grammar is canonical. -/
theorem toChomsky (h : g.IsCanonical goal) : g.toChomsky.IsCanonical goal where
  goal_eq := h.goal_eq
  closed := h.closed.toChomsky
  no_chain rule hrule name hbody := by
    rcases h.isChomsky_toChomsky rule hrule with (⟨c, hsplit⟩ | ⟨left, right, hsplit⟩) | ⟨hnil, -⟩
    · simp [hsplit] at hbody
    · simp [hsplit] at hbody
    · simp [hnil] at hbody
  nil_body head hrule := by
    have hempty : ¬ Body.IsSplit [] := fun hsplit => absurd hsplit.length_pos (Nat.lt_irrefl 0)
    obtain ⟨-, hgoal, -⟩ := (shape_toChomsky h.closed hrule).resolve_left hempty
    obtain ⟨-, hfree⟩ := (h.isChomsky_toChomsky _ hrule).resolve_left hempty
    obtain rfl : goal = head := Option.some.inj (h.goal_eq.symm.trans hgoal)
    exact ⟨rfl, fun rule hother hmem => hfree ⟨rule, hother, hmem⟩⟩
  has_body name hname := by
    obtain ⟨chain, body, hrule, -⟩ := h.exists_derives_toChomsky hname
    exact ⟨body, hrule⟩
  occurs name hname := by
    obtain ⟨head, hhead, hpath⟩ := exists_refers_toChomsky h.closed hname
    have hoccurs := occurs_nonTerminal_iff.mp (h.occurs_toChomsky (h.occurs head hhead))
    exact occurs_nonTerminal_iff.mpr (hoccurs.trans hpath)
  derives _ hname := h.exists_derives_toChomsky hname
  letter_occurs c hc :=
    occurs_terminal_iff.mp (h.occurs_toChomsky (occurs_terminal_iff.mpr (h.letter_occurs c hc)))

end IsCanonical

/-! ### The form -/

/-- The grammar has the Chomsky form and stems from the other one. -/
structure IsChomskyFormOf (form g : Grammar) : Prop where
  /-- A body is one terminal, two declared names, or empty under the goal. -/
  shape : ∀ rule ∈ form.rules,
    (∃ c, rule.body = [.terminal c]) ∨
    (∃ left ∈ form.nonTerminals, ∃ right ∈ form.nonTerminals,
      rule.body = [.nonTerminal left, .nonTerminal right]) ∨
    rule.body = [] ∧ form.goal = some rule.head
  terminals_eq : form.terminals = g.terminals
  goal_eq : form.goal = g.goal
  /-- The names of the other grammar stay declared. -/
  kept : ∀ name ∈ g.nonTerminals, name ∈ form.nonTerminals
  /-- Every other name has exactly one body. -/
  single : ∀ name ∈ form.nonTerminals, name ∉ g.nonTerminals → ∃! body, ⟨name, body⟩ ∈ form.rules

theorem Closed.isChomskyFormOf (hg : g.Closed) : g.toChomsky.IsChomskyFormOf g where
  shape rule hrule := by
    rcases shape_toChomsky hg hrule with (⟨c, hbody⟩ | ⟨left, right, hbody⟩) | ⟨hnil, hgoal, -⟩
    · exact .inl ⟨c, hbody⟩
    · have hdeclared := hg.toChomsky.body rule hrule
      exact .inr (.inl ⟨left, hdeclared (.nonTerminal left) (by simp [hbody]), right,
        hdeclared (.nonTerminal right) (by simp [hbody]), hbody⟩)
    · exact .inr (.inr ⟨hnil, hgoal⟩)
  terminals_eq := rfl
  goal_eq := rfl
  kept name hname := by
    simp only [Grammar.toChomsky, Std.ExtTreeSet.mem_insertMany_list]
    exact .inl hname
  single _ hname hfresh := existsUnique_body_toChomsky hg hname hfresh

/-- The Chomsky form of a reachable grammar has the shape, is its own Chomsky form, and is its own
canonical form when it is made from a canonical form. -/
theorem toChomsky_stable (hg : g.Reachable) :
    g.toChomsky.IsChomskyFormOf g ∧ g.toChomsky.toChomsky = g.toChomsky ∧
      ∀ g', g.toCanonical = .ok g' → g'.toChomsky.toCanonical = .ok g'.toChomsky := by
  refine ⟨hg.closed.isChomskyFormOf, toChomsky_eq_self fun rule hrule => ?_, fun g' h => ?_⟩
  · exact (shape_toChomsky hg.closed hrule).imp_right fun ⟨hnil, hgoal, _⟩ => ⟨hnil, hgoal⟩
  · obtain ⟨goal, hcanonical⟩ := hg.closed.isCanonical_toCanonical h
    exact hcanonical.toChomsky.toCanonical_eq

theorem toChomsky_stable_nullableGoal :
    nullableGoal.Reachable ∧ nullableGoal.toChomsky.IsChomskyFormOf nullableGoal ∧
      nullableGoal.toChomsky.toChomsky = nullableGoal.toChomsky ∧
      ∃ g, nullableGoal.toCanonical = .ok g ∧ g.toChomsky.toCanonical = .ok g.toChomsky := by
  obtain ⟨g, hg⟩ := exists_toCanonical_nullableGoal
  obtain ⟨hform, hstable, hcanonical⟩ := toChomsky_stable reachable_nullableGoal
  exact ⟨reachable_nullableGoal, hform, hstable, g, hg, hcanonical g hg⟩

end FormalLanguages.Grammar
