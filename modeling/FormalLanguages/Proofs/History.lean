import FormalLanguages.Proofs.Chomsky.Derivations
import FormalLanguages.Proofs.Drafts

/-!
Histories of grammars. A grammar is reachable when calls from outside lead to it from the empty
grammar. The calls are made in place, and what a refused call leaves is as much a part of the history
as what the others do; it turns out to be the grammar from before. Every reachable grammar is closed,
as every call keeps a closed grammar closed.
-/

namespace FormalLanguages.Grammar

/-- A call on a grammar. -/
inductive Operation where
  | setTerminals (text : String)
  | setNonTerminals (text : String)
  | setGoal (name : String)
  | addRule (text : String)
  | removeRule (rule : Rule)
  | toCanonical
  | toChomsky

namespace Operation

def apply (g : Grammar) : Operation → Except Error Grammar
  | .setTerminals text => g.setTerminals text
  | .setNonTerminals text => g.setNonTerminals text
  | .setGoal name => g.setGoal name
  | .addRule text => g.addRule text
  | .removeRule rule => .ok (g.removeRule rule)
  | .toCanonical => g.toCanonical
  | .toChomsky => .ok g.toChomsky

/-- The call on a draft. -/
def edit : Operation → Edit Unit
  | .setTerminals text => Draft.setTerminals text
  | .setNonTerminals text => Draft.setNonTerminals text
  | .setGoal name => Draft.setGoal name
  | .addRule text => Draft.addRule text
  | .removeRule rule => do
    let _ ← Draft.removeRule rule
    return
  | .toCanonical => Draft.toCanonical
  | .toChomsky => Draft.toChomsky

/-- The grammar after the call in place, whether it is taken or refused. -/
def perform (g : Grammar) (operation : Operation) : Grammar :=
  (operation.edit.on (.ofGrammar g)).2.grammar

theorem edit_refines (operation : Operation) :
    operation.edit.Refines fun g => operation.apply g := by
  cases operation with
  | setTerminals text => exact Draft.setTerminals_refines text
  | setNonTerminals text => exact Draft.setNonTerminals_refines text
  | setGoal name => exact Draft.setGoal_refines name
  | addRule text => exact Draft.addRule_refines text
  | removeRule rule => exact (Draft.removeRule_refines rule).without_answer
  | toCanonical => exact Draft.toCanonical_refines
  | toChomsky => exact Draft.toChomsky_refines

variable {g g' : Grammar}

theorem perform_eq (operation : Operation) (h : operation.apply g = .ok g') :
    operation.perform g = g' := by
  rw [← Draft.grammar_ofGrammar g] at h
  exact operation.edit_refines.grammar_of_ok h

/-- A refused call leaves the grammar as it is. -/
theorem perform_eq_self (operation : Operation) {error : Error}
    (h : operation.apply g = .error error) : operation.perform g = g := by
  rw [← Draft.grammar_ofGrammar g] at h
  rw [perform, operation.edit_refines.of_error h, Draft.grammar_ofGrammar]

theorem perform_cases (operation : Operation) (g : Grammar) :
    operation.apply g = .ok (operation.perform g) ∨ operation.perform g = g := by
  cases h : operation.apply g with
  | ok g' => exact .inl (congrArg Except.ok (operation.perform_eq h).symm)
  | error error => exact .inr (operation.perform_eq_self h)

/-- A draft goes through the same grammars as its own one. -/
theorem grammar_edit (operation : Operation) (d : Draft) :
    (operation.edit.on d).2.grammar = operation.perform d.grammar := by
  rcases operation.edit_refines.cases d with ⟨g, _, d', hcall, hon, rfl, -⟩ | ⟨error, hcall, hon⟩
  · rw [hon, operation.perform_eq hcall]
  · rw [hon, operation.perform_eq_self hcall]

end Operation

/-- Calls lead from the empty grammar to this one. -/
inductive Reachable : Grammar → Prop where
  | empty : Reachable Grammar.empty
  | perform {g : Grammar} (hg : Reachable g) (operation : Operation) :
      Reachable (operation.perform g)

variable {g g' : Grammar}

/-- What some calls on the empty grammar lead to. -/
def ofCalls (operations : List Operation) : Grammar :=
  operations.foldl Operation.perform Grammar.empty

theorem reachable_foldl_perform (hg : g.Reachable) (operations : List Operation) :
    (operations.foldl Operation.perform g).Reachable := by
  induction operations generalizing g with
  | nil => exact hg
  | cons operation operations ih => exact ih (hg.perform operation)

theorem reachable_ofCalls (operations : List Operation) : (ofCalls operations).Reachable :=
  reachable_foldl_perform .empty operations

/-- Reachable grammars are what sequences of calls lead to. -/
theorem reachable_iff : g.Reachable ↔ ∃ operations, ofCalls operations = g := by
  constructor
  · intro hg
    induction hg with
    | empty => exact ⟨[], rfl⟩
    | perform _ operation ih =>
        obtain ⟨operations, rfl⟩ := ih
        exact ⟨operations ++ [operation], by simp [ofCalls]⟩
  · rintro ⟨operations, rfl⟩
    exact reachable_ofCalls operations

/-! ### One call -/

theorem Closed.of_no_rules (hgoal : ∀ name, g.goal = some name → name ∈ g.nonTerminals)
    (hrules : g.rules = ∅) : g.Closed where
  goal := hgoal
  head rule hrule := by simp [hrules] at hrule
  body rule hrule := by simp [hrules] at hrule

theorem Closed.setTerminals (hg : g.Closed) {text : String} (h : g.setTerminals text = .ok g') :
    g'.Closed := by
  obtain ⟨-, rfl⟩ := setTerminals_eq_ok_iff.mp h
  exact .of_no_rules hg.goal rfl

theorem Closed.setNonTerminals {text : String} (h : g.setNonTerminals text = .ok g') :
    g'.Closed := by
  obtain ⟨-, rfl⟩ := setNonTerminals_eq_ok_iff.mp h
  refine .of_no_rules (fun name hname => ?_) rfl
  exact of_decide_eq_true (Option.filter_eq_some_iff.mp hname).2

theorem Closed.setGoal (hg : g.Closed) {name : String} (h : g.setGoal name = .ok g') :
    g'.Closed := by
  unfold Grammar.setGoal at h
  split at h
  · rename_i hname
    obtain rfl := Except.ok.inj h
    refine ⟨fun other hother => ?_, hg.head, hg.body⟩
    obtain rfl := Option.some.inj hother
    exact hname
  · exact absurd h (by simp)

theorem Closed.addRule (hg : g.Closed) {text : String} (h : g.addRule text = .ok g') :
    g'.Closed := by
  obtain ⟨rule, hrule, h⟩ := bind_eq_ok.mp h
  obtain rfl := Except.ok.inj h
  obtain ⟨hhead, hbody⟩ := declares_of_parseRule hrule
  refine ⟨hg.goal, fun other hother => ?_, fun other hother => ?_⟩
  · rcases RuleTable.mem_insert_rule.mp hother with rfl | hother
    · exact hhead
    · exact hg.head other hother
  · rcases RuleTable.mem_insert_rule.mp hother with rfl | hother
    · exact hbody
    · exact hg.body other hother

theorem Closed.removeRule (hg : g.Closed) (rule : Rule) : (g.removeRule rule).Closed where
  goal := hg.goal
  head other hother := hg.head other (Std.ExtTreeSet.mem_of_mem_erase hother)
  body other hother := hg.body other (Std.ExtTreeSet.mem_of_mem_erase hother)

theorem Closed.toCanonical (hg : g.Closed) (h : g.toCanonical = .ok g') : g'.Closed := by
  obtain ⟨run, goal, root, -, rfl, hof⟩ := toCanonical_eq_ok h
  exact hof.closed_result hg

theorem Closed.apply (hg : g.Closed) {operation : Operation} (h : operation.apply g = .ok g') :
    g'.Closed := by
  cases operation with
  | setTerminals text => exact hg.setTerminals h
  | setNonTerminals text => exact .setNonTerminals h
  | setGoal name => exact hg.setGoal h
  | addRule text => exact hg.addRule h
  | removeRule rule =>
      obtain rfl := Except.ok.inj h
      exact hg.removeRule rule
  | toCanonical => exact hg.toCanonical h
  | toChomsky =>
      obtain rfl := Except.ok.inj h
      exact hg.toChomsky

/-! ### Any number of calls -/

theorem Reachable.closed (hg : g.Reachable) : g.Closed := by
  induction hg with
  | empty => exact closed_empty
  | perform _ operation ih =>
      rcases operation.perform_cases _ with hok | hrefused
      · exact ih.apply hok
      · rwa [hrefused]

/-! ### An example -/

/-- A grammar with a barren name, an unreachable one, a chain body and a goal that derives the empty
chain and occurs in its own bodies. -/
def nullableGoal : Grammar :=
  ofCalls [.setTerminals "ab", .setNonTerminals "S;A;B;C", .setGoal "S", .addRule "S→aSA",
    .addRule "S→λ", .addRule "S→CC", .addRule "A→S", .addRule "B→b", .addRule "C→aC"]

theorem reachable_nullableGoal : nullableGoal.Reachable :=
  reachable_ofCalls _

theorem exists_canonize_nullableGoal : ∃ run, nullableGoal.canonize = .ok run := by
  have h : nullableGoal.canonize.toOption.isSome = true := by decide +kernel
  obtain ⟨run, hrun⟩ := Option.isSome_iff_exists.mp h
  exact ⟨run, eq_ok_of_toOption hrun⟩

theorem exists_toCanonical_nullableGoal : ∃ g, nullableGoal.toCanonical = .ok g := by
  obtain ⟨run, hrun⟩ := exists_canonize_nullableGoal
  exact ⟨run.result, by rw [Grammar.toCanonical, hrun]; rfl⟩

end FormalLanguages.Grammar
