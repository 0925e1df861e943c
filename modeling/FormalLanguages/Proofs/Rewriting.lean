import FormalLanguages.Proofs.Interpretation
import Mathlib.Logic.Relation

/-!
Rule tables as rewriting systems. A step replaces one non-terminal of a sentential form by one of
its bodies. A body yields a chain exactly when steps lead from the body to the chain, and the
symbols that occur in the forms of a goal are those that its names refer to, one after the other.
-/

namespace FormalLanguages.RuleTable

open Relation

/-- One non-terminal of a form gives way to one of its bodies. -/
inductive Rewrites (rules : RuleTable) : Body → Body → Prop where
  | expand {name : String} {body : Body} (before after : Body) (hrule : ⟨name, body⟩ ∈ rules) :
      Rewrites rules (before ++ .nonTerminal name :: after) (before ++ body ++ after)

/-- The symbol is part of a form that the goal rewrites to. -/
def Occurs (rules : RuleTable) (goal : String) (symbol : Symbol) : Prop :=
  ∃ form, ReflTransGen rules.Rewrites [.nonTerminal goal] form ∧ symbol ∈ form

/-- The name is part of a body of the head. -/
def Refers (rules : RuleTable) (head name : String) : Prop :=
  ∃ body, ⟨head, body⟩ ∈ rules ∧ .nonTerminal name ∈ body

variable {rules : RuleTable}

theorem Rewrites.surround {form form' : Body} (h : rules.Rewrites form form')
    (before after : Body) :
    rules.Rewrites (before ++ form ++ after) (before ++ form' ++ after) := by
  cases h with
  | expand left right hrule =>
      simpa using Rewrites.expand (before ++ left) (right ++ after) hrule

theorem rewrites_surround {form form' : Body} (h : ReflTransGen rules.Rewrites form form')
    (before after : Body) :
    ReflTransGen rules.Rewrites (before ++ form ++ after) (before ++ form' ++ after) :=
  h.lift (fun form => before ++ form ++ after) fun _ _ hstep => hstep.surround before after

theorem Yields.of_rewrites {form form' : Body} (h : rules.Rewrites form form')
    {chain : List Char} (hyields : rules.Yields form' chain) : rules.Yields form chain := by
  cases h with
  | expand before after hrule =>
      obtain ⟨first, last, rfl, hfirst, hlast⟩ := Yields.append_iff.mp hyields
      obtain ⟨first, middle, rfl, hfirst, hmiddle⟩ := Yields.append_iff.mp hfirst
      rw [List.append_assoc]
      exact hfirst.append (.nonTerminal hrule hmiddle hlast)

theorem yields_terminals (chain : List Char) : rules.Yields (chain.map .terminal) chain :=
  yields_iff_reads.mpr (Body.Reads.terminals chain)

/-- A body yields the chains that rewriting turns it into. -/
theorem yields_iff_rewrites {body : Body} {chain : List Char} :
    rules.Yields body chain ↔ ReflTransGen rules.Rewrites body (chain.map .terminal) := by
  constructor
  · intro h
    induction h with
    | nil => exact .refl
    | @terminal c body rest _ ih =>
        simpa using rewrites_surround ih [.terminal c] []
    | @nonTerminal name expansion body chain rest hrule _ _ ihchain ihrest =>
        -- the name gives way first, then its chain is rewritten, then the rest of the body
        have hexpand : rules.Rewrites (.nonTerminal name :: body) (expansion ++ body) := by
          simpa using Rewrites.expand [] body hrule
        have hchain := rewrites_surround ihchain [] body
        have hrest := rewrites_surround ihrest (chain.map .terminal) []
        simp only [List.nil_append, List.append_nil] at hchain hrest
        rw [List.map_append]
        exact .head hexpand (hchain.trans hrest)
  · intro h
    induction h using ReflTransGen.head_induction_on with
    | refl => exact yields_terminals chain
    | head hstep _ ih => exact .of_rewrites hstep ih

theorem rewrites_of_refers {goal name : String} (h : ReflTransGen rules.Refers goal name) :
    ∃ before after, ReflTransGen rules.Rewrites [.nonTerminal goal]
      (before ++ .nonTerminal name :: after) := by
  induction h with
  | refl => exact ⟨[], [], .refl⟩
  | tail _ hrefers ih =>
      obtain ⟨before, after, hform⟩ := ih
      obtain ⟨body, hrule, hname⟩ := hrefers
      obtain ⟨left, right, rfl⟩ := List.append_of_mem hname
      refine ⟨before ++ left, right ++ after, hform.tail ?_⟩
      simpa using Rewrites.expand before after hrule

/-- A symbol of a form is the goal or part of a body that the goal leads to. -/
theorem occurs_iff {goal : String} {symbol : Symbol} :
    rules.Occurs goal symbol ↔ symbol = .nonTerminal goal ∨
      ∃ head body, ReflTransGen rules.Refers goal head ∧ ⟨head, body⟩ ∈ rules ∧
        symbol ∈ body := by
  constructor
  · rintro ⟨form, hform, hsymbol⟩
    induction hform generalizing symbol with
    | refl => exact .inl (List.mem_singleton.mp hsymbol)
    | tail _ hstep ih =>
        obtain ⟨before, after, hrule⟩ := hstep
        rw [List.append_assoc, List.mem_append, List.mem_append] at hsymbol
        rcases hsymbol with hbefore | hbody | hafter
        · exact ih (List.mem_append_left _ hbefore)
        · refine .inr ⟨_, _, ?_, hrule, hbody⟩
          rcases ih (List.mem_append_right _ List.mem_cons_self) with hgoal | ⟨head, body, hhead⟩
          · cases hgoal
            exact .refl
          · exact hhead.1.tail ⟨body, hhead.2⟩
        · exact ih (List.mem_append_right _ (List.mem_cons_of_mem _ hafter))
  · rintro (rfl | ⟨head, body, hhead, hrule, hsymbol⟩)
    · exact ⟨_, .refl, List.mem_singleton_self _⟩
    · obtain ⟨before, after, hform⟩ := rewrites_of_refers hhead
      refine ⟨_, hform.tail (.expand before after hrule), ?_⟩
      exact List.mem_append_left _ (List.mem_append_right _ hsymbol)

theorem occurs_nonTerminal_iff {goal name : String} :
    rules.Occurs goal (.nonTerminal name) ↔ ReflTransGen rules.Refers goal name := by
  rw [occurs_iff]
  constructor
  · rintro (hgoal | ⟨head, body, hhead, hrule, hname⟩)
    · cases hgoal
      exact .refl
    · exact hhead.tail ⟨body, hrule, hname⟩
  · intro h
    cases h with
    | refl => exact .inl rfl
    | tail hhead hrefers =>
        obtain ⟨body, hrule, hname⟩ := hrefers
        exact .inr ⟨_, body, hhead, hrule, hname⟩

theorem occurs_terminal_iff {goal : String} {c : Char} :
    rules.Occurs goal (.terminal c) ↔ ∃ head body,
      rules.Occurs goal (.nonTerminal head) ∧ ⟨head, body⟩ ∈ rules ∧ .terminal c ∈ body := by
  rw [occurs_iff]
  simp only [occurs_nonTerminal_iff, reduceCtorEq, false_or]

/-- More rules let references lead to more names. -/
theorem reflTransGen_refers_mono {rules' : RuleTable} (hsubset : ∀ rule ∈ rules, rule ∈ rules')
    {head name : String} (h : ReflTransGen rules.Refers head name) :
    ReflTransGen rules'.Refers head name :=
  h.lift id fun _ _ ⟨body, hrule, hname⟩ => ⟨body, hsubset _ hrule, hname⟩

/-- More rules let more symbols occur. -/
theorem Occurs.mono {rules' : RuleTable} (hsubset : ∀ rule ∈ rules, rule ∈ rules')
    {goal : String} {symbol : Symbol} (h : rules.Occurs goal symbol) :
    rules'.Occurs goal symbol := by
  obtain ⟨form, hform, hsymbol⟩ := h
  refine ⟨form, hform.lift id ?_, hsymbol⟩
  rintro _ _ ⟨before, after, hrule⟩
  exact .expand before after (hsubset _ hrule)

/-- What occurs below a name that occurs. -/
theorem Occurs.of_rule {goal head : String} {body : Body} {symbol : Symbol}
    (hhead : rules.Occurs goal (.nonTerminal head)) (hrule : ⟨head, body⟩ ∈ rules)
    (hsymbol : symbol ∈ body) : rules.Occurs goal symbol :=
  occurs_iff.mpr (.inr ⟨head, body, occurs_nonTerminal_iff.mp hhead, hrule, hsymbol⟩)

end FormalLanguages.RuleTable
