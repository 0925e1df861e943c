import FormalLanguages.Proofs.Automaton.Traces

/-!
Stack actions. A rule stores no action but only what takes the place of the stack top, and an action
is read off this replacement again. Different actions can have one replacement: to push nothing is
to keep the top, to replace it by symbols that end in it is to push the others, and to replace it by
nothing is to pop it. A rule that is made from an action has the effect of that action on every
stack, and is the same as the rule that is made from the action read off it.
-/

namespace FormalLanguages.Automaton.Pushdown

/-- The stack that an action leaves, its top first. -/
def Action.effect : Action → List Char → List Char
  | .pop, stack => stack.tail
  | .keep, stack => stack
  | .push symbols, stack => symbols.toList ++ stack
  | .replace symbols, stack => symbols.toList.filter (· ≠ lambda) ++ stack.tail

/-- The rule that is made from the trigger, the target and the action of a rule. -/
def Rule.rebuilt (rule : Rule) : Rule :=
  rule.trigger.rule rule.target rule.action

variable {m : Pushdown} {rule : Rule} {c : Configuration} {top : Char} {stack : List Char}
variable {limit moves : Nat} {passed : List Configuration}

/-! ### Effects -/

/-- The replacement of an action does to a stack with this top what the action does. -/
theorem Action.replacement_append (action : Action) (top : Char) (stack : List Char) :
    (action.replacement top).toList ++ stack = action.effect (top :: stack) := by
  cases action with
  | pop => simp [replacement, effect]
  | keep => simp [replacement, effect]
  | push symbols => simp [replacement, effect]
  | replace symbols => simp [replacement, effect]

theorem Trigger.stack_apply_rule (trigger : Trigger) (target : String) (action : Action)
    (htop : c.stack.head? = some trigger.top) :
    ((trigger.rule target action).apply c).stack = action.effect c.stack := by
  obtain ⟨stack, hstack⟩ := List.head?_eq_some_iff.mp htop
  rw [hstack, ← action.replacement_append, Rule.apply, hstack, List.tail_cons]
  rfl

/-- Where a rule applies a run goes on with what the rule makes of the configuration. -/
theorem runFrom_of_selects (h : m.Selects c rule) (hmoves : rule.input = none → moves < limit) :
    m.runFrom limit moves passed c.state c.rest c.stack =
      m.runFrom limit (if rule.input = none then moves + 1 else 0) (c :: passed)
        (rule.apply c).state (rule.apply c).rest (rule.apply c).stack := by
  obtain ⟨state, rest, stack⟩ := c
  obtain ⟨stack, rfl⟩ := List.head?_eq_some_iff.mp h.top
  have hselect : m.select state rest.head? rule.top = .ok rule := (select_eq_ok_iff h.top).mpr h
  cases hinput : rule.input with
  | none =>
      rw [runFrom]
      simp only [hselect, hinput, hmoves hinput, Rule.apply, if_true]
      rfl
  | some letter =>
      have hhead : rest.head? = some letter := by simpa [hinput, eq_comm] using h.input
      obtain ⟨left, rfl⟩ := List.head?_eq_some_iff.mp hhead
      rw [runFrom]
      simp only [hselect, hinput, Rule.apply]
      rfl

/-! ### Actions read off rules -/

namespace Rule

/-- An action that is read off a replacement has this replacement, unless it is read as a `replace`
and the replacement holds a `λ`. -/
theorem replacement_action_iff (rule : Rule) :
    rule.action.replacement rule.top = rule.replacement ↔
      lambda ∉ rule.replacement.toList ∨ rule.replacement.toList.getLast? = some rule.top := by
  rw [← String.toList_inj]
  simp only [action]
  split
  · rename_i hempty
    have hnil : rule.replacement.toList = [] := by simpa using hempty
    simp [hnil, Action.replacement]
  · split
    · -- the replacement ends in the top, which all but its last symbol are pushed on
      rename_i hlast
      have hends : rule.replacement.toList.dropLast ++ [rule.top] = rule.replacement.toList :=
        List.dropLast_append_getLast? _ hlast
      split
      · rename_i hone
        obtain ⟨symbol, hsymbol⟩ := List.length_eq_one_iff.mp hone
        simp_all [Action.replacement]
      · simpa [Action.replacement, hlast] using hends
    · rename_i hlast
      simp only [Action.replacement, String.toList_ofList, List.filter_eq_self, hlast, or_false,
        decide_eq_true_eq]
      exact ⟨fun h hmem => h lambda hmem rfl, fun h symbol hsymbol heq => h (heq ▸ hsymbol)⟩

/-- Exactly those rules can be rebuilt whose replacement ends in the top or holds no `λ`. -/
theorem rebuilt_eq_self_iff (rule : Rule) : rule.rebuilt = rule ↔
    lambda ∉ rule.replacement.toList ∨ rule.replacement.toList.getLast? = some rule.top := by
  rw [← rule.replacement_action_iff]
  obtain ⟨source, input, top, target, replacement⟩ := rule
  simp [rebuilt, trigger, Trigger.rule]

end Rule

/-- The replacement of an action ends in the top or holds no `λ`. -/
theorem Action.lambda_not_mem_or_ends (action : Action) (top : Char) :
    lambda ∉ (action.replacement top).toList ∨
      (action.replacement top).toList.getLast? = some top := by
  cases action with
  | pop => exact .inl (by simp [replacement])
  | keep => exact .inr (by simp [replacement])
  | push symbols => exact .inr (by simp [replacement])
  | replace symbols => exact .inl (by simp [replacement])

/-- A rule that is made from an action leaves the stack that the action leaves, wherever its trigger
is on top, and a run in which the rule applies goes on with this stack. The rule made from what it
shows is the same rule. -/
theorem stackActions_exact (trigger : Trigger) (target : String) (action : Action) :
    (∀ c : Configuration, c.stack.head? = some trigger.top →
      ((trigger.rule target action).apply c).stack = action.effect c.stack) ∧
    (∀ (m : Pushdown) (limit moves : Nat) (passed : List Configuration) (c : Configuration),
      m.Selects c (trigger.rule target action) → (trigger.input = none → moves < limit) →
        m.runFrom limit moves passed c.state c.rest c.stack =
          m.runFrom limit (if trigger.input = none then moves + 1 else 0) (c :: passed) target
            (c.rest.drop trigger.input.toList.length) (action.effect c.stack)) ∧
    (trigger.rule target action).rebuilt = trigger.rule target action := by
  refine ⟨fun c htop => trigger.stack_apply_rule target action htop, ?_, ?_⟩
  · intro m limit moves passed c hselects hmoves
    rw [runFrom_of_selects hselects hmoves, trigger.stack_apply_rule target action hselects.top]
    rfl
  · rw [Rule.rebuilt_eq_self_iff]
    exact action.lambda_not_mem_or_ends trigger.top

/-- To replace the top by symbols that end in it is to push what is left of the others. -/
theorem stackActions_exact_bracketsThenStop :
    ['Z'].head? = some 'Z' ∧
    ((Trigger.rule ⟨"q0", some '(', 'Z'⟩ "q0" (.replace "λ(Z")).apply
      ⟨"q0", ['(', ')'], ['Z']⟩).stack = ['(', 'Z'] ∧
    bracketsThenStop.Selects ⟨"q0", ['(', ')'], ['Z']⟩
      (Trigger.rule ⟨"q0", some '(', 'Z'⟩ "q0" (.replace "λ(Z")) ∧
    bracketsThenStop.runFrom lambdaLimit 0 [] "q0" ['(', ')'] ['Z'] =
      bracketsThenStop.runFrom lambdaLimit 0 [⟨"q0", ['(', ')'], ['Z']⟩] "q0" [')'] ['(', 'Z'] ∧
    (Trigger.rule ⟨"q0", some '(', 'Z'⟩ "q0" (.replace "λ(Z")).action = .push "(" ∧
    (Trigger.rule ⟨"q0", some '(', 'Z'⟩ "q0" (.replace "λ(Z")).rebuilt =
      Trigger.rule ⟨"q0", some '(', 'Z'⟩ "q0" (.replace "λ(Z") := by
  obtain ⟨hstack, hrun, hrebuilt⟩ :=
    stackActions_exact ⟨"q0", some '(', 'Z'⟩ "q0" (.replace "λ(Z")
  have heffect : (Action.replace "λ(Z").effect ['Z'] = ['(', 'Z'] := by decide
  have hselect : bracketsThenStop.select "q0" (some '(') 'Z' =
      .ok (Trigger.rule ⟨"q0", some '(', 'Z'⟩ "q0" (.replace "λ(Z")) :=
    eq_ok_of_toOption (by decide +kernel)
  have hselects : bracketsThenStop.Selects ⟨"q0", ['(', ')'], ['Z']⟩
      (Trigger.rule ⟨"q0", some '(', 'Z'⟩ "q0" (.replace "λ(Z")) :=
    (select_eq_ok_iff rfl).mp hselect
  refine ⟨rfl, ?_, hselects, ?_, by decide, hrebuilt⟩
  · rw [hstack _ rfl, heffect]
  · rw [← heffect]
    exact hrun bracketsThenStop lambdaLimit 0 [] _ hselects (by simp)

end FormalLanguages.Automaton.Pushdown
