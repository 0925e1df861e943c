import FormalLanguages.Grammar.Document
import FormalLanguages.Proofs.RuleTexts

/-!
Batches of rule texts. The alphabets alone decide what a rule text states or why it is refused, so
the texts of a batch have no influence on each other: those that are refused are listed in their
order, and the rules that the others state are added.
-/

namespace FormalLanguages.Grammar

variable {g : Grammar}

/-- Rules that are there already have no say in what a text states. -/
theorem parseRule_with_rules (g : Grammar) (rules : RuleTable) :
    { g with rules }.parseRule = g.parseRule :=
  parseRule_eq_of_alphabets rfl rfl

namespace Document

/-- The header is accepted when the terminals, the names and a goal that is given are taken, each by
the grammar that the one before has left. -/
theorem header_eq_ok_iff {document : Document} : document.header = .ok g ↔
    ∃ lettered named, Grammar.empty.setTerminals document.terminals = .ok lettered ∧
      lettered.setNonTerminals document.nonTerminals = .ok named ∧
      if document.goal = "" then named = g else named.setGoal document.goal = .ok g := by
  simp only [header, bind_eq_ok, String.isEmpty_iff]
  by_cases hgoal : document.goal = "" <;> simp [hgoal, pure, Except.pure]

/-- The rule that a text states, unless it is refused. -/
def stated? (g : Grammar) (text : String) : Option Rule :=
  (g.parseRule text).toOption

/-- The error that refuses a numbered text when it is added alone. -/
def refusal? (g : Grammar) (numbered : Nat × String) : Option (Nat × Error) :=
  match g.addRule numbered.2 with
  | .ok _ => none
  | .error error => some (numbered.1, error)

theorem stated?_eq_some_iff {text : String} {rule : Rule} :
    stated? g text = some rule ↔ g.parseRule text = .ok rule := by
  cases h : g.parseRule text <;> simp [stated?, h, Except.toOption]

theorem refusal?_eq_none_iff {number : Nat} {text : String} :
    refusal? g (number, text) = none ↔ ∃ rule, g.parseRule text = .ok rule := by
  cases h : g.parseRule text <;> simp [refusal?, addRule, h, bind, Except.bind, pure, Except.pure]

theorem stated?_with_rules (g : Grammar) (rules : RuleTable) :
    stated? { g with rules } = stated? g := by
  funext text
  rw [stated?, stated?, parseRule_with_rules]

theorem refusal?_with_rules (g : Grammar) (rules : RuleTable) :
    refusal? { g with rules } = refusal? g := by
  funext numbered
  rw [refusal?, refusal?, addRule, addRule, parseRule_with_rules]
  cases g.parseRule numbered.2 <;> rfl

/-- A batch adds what its texts state one by one, and lists why the others are refused. -/
theorem addRules_eq (numbered : List (Nat × String)) (g : Grammar) :
    addRules numbered g =
      ({ g with rules := g.rules.insertMany ((numbered.map Prod.snd).filterMap (stated? g)) },
        numbered.filterMap (refusal? g)) := by
  induction numbered generalizing g with
  | nil =>
      rw [List.map_nil, List.filterMap_nil, Std.ExtTreeSet.insertMany_nil]
      rfl
  | cons first numbered ih =>
      obtain ⟨number, text⟩ := first
      cases hparse : g.parseRule text with
      | error error =>
          have hadd : g.addRule text = .error error := by
            rw [addRule, hparse]
            rfl
          have hstated : stated? g text = none := by
            rw [stated?, hparse]
            rfl
          have hrefusal : refusal? g (number, text) = some (number, error) := by
            rw [refusal?, hadd]
          simp only [addRules, hadd, ih, List.map_cons, List.filterMap_cons, hstated, hrefusal]
      | ok rule =>
          have hadd : g.addRule text = .ok { g with rules := g.rules.insert rule } := by
            rw [addRule, hparse]
            rfl
          have hstated := stated?_eq_some_iff.mpr hparse
          have hrefusal : refusal? g (number, text) = none :=
            refusal?_eq_none_iff.mpr ⟨rule, hparse⟩
          -- the rule that has been added makes no difference to the rest
          simp only [addRules, hadd, ih, stated?_with_rules, refusal?_with_rules, List.map_cons,
            List.filterMap_cons, hstated, hrefusal, Std.ExtTreeSet.insertMany_cons]

theorem mem_addRules {numbered : List (Nat × String)} {rule : Rule} :
    rule ∈ (addRules numbered g).1.rules ↔
      rule ∈ g.rules ∨ ∃ text ∈ numbered.map Prod.snd, g.parseRule text = .ok rule := by
  simp only [addRules_eq, Std.ExtTreeSet.mem_insertMany_list, List.contains_iff_mem,
    List.mem_filterMap, stated?_eq_some_iff]

end Document

end FormalLanguages.Grammar
