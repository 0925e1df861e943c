import FormalLanguages.Proofs.Automaton.Traces

/-!
Automata without a choice. Validation accepts exactly the automata that use declared states and
symbols and have one rule for a trigger, and adding rules one at a time never makes a second rule
for a trigger. Where triggers are distinct no run finds two rules that apply, and a run of a valid
automaton never leaves the declared states and stack symbols.
-/

namespace FormalLanguages.Automaton

/-- All configurations of a run, in order. -/
def Run.configurations {Configuration : Type} (run : Run Configuration) : List Configuration :=
  run.passed ++ run.final.toList

namespace Pushdown

/-- No two rules have one trigger. -/
def HasDistinctTriggers (m : Pushdown) : Prop :=
  ∀ rule ∈ m.rules, ∀ other ∈ m.rules, rule.trigger = other.trigger → rule = other

/-- The state and all symbols on the stack are declared. -/
structure Declares (m : Pushdown) (c : Configuration) : Prop where
  state : c.state ∈ m.states
  stack : ∀ symbol ∈ c.stack, symbol ∈ m.stackAlphabet

/-- A change of the rules. -/
inductive Edit where
  | add (rule : Rule)
  | remove (rule : Rule)

/-- The automaton after a change; to add a rule that is refused changes nothing. -/
def Edit.perform (m : Pushdown) : Edit → Pushdown
  | .add rule =>
    match m.addRule rule with
    | .ok m' => m'
    | .error _ => m
  | .remove rule => { m with rules := m.rules.erase rule }

variable {m m' : Pushdown} {rule : Rule} {c d last : Configuration} {state : String}
variable {next : Option Char} {top : Char} {limit : Nat} {passed : List Configuration}
variable {run : Run Configuration}

/-! ### Triggers -/

theorem Valid.hasDistinctTriggers (hvalid : m.Valid) : m.HasDistinctTriggers :=
  hvalid.eq_of_trigger

theorem addRule_eq_ok_iff : m.addRule rule = .ok m' ↔
    (∀ other ∈ m.rules, other.trigger ≠ rule.trigger) ∧
      { m with rules := m.rules.insert rule } = m' := by
  have hnew : (m.rules.toList.any (·.trigger = rule.trigger)) = true ↔
      ¬ ∀ other ∈ m.rules, other.trigger ≠ rule.trigger := by
    simp [List.any_eq_true]
  unfold addRule
  split
  · rename_i hclash
    exact ⟨fun h => absurd h (by simp), fun h => absurd h.1 (hnew.mp hclash)⟩
  · rename_i hfree
    rw [hnew, not_not] at hfree
    rw [Except.ok.injEq, and_iff_right hfree]

/-- A rule that is added has a trigger of its own. -/
theorem HasDistinctTriggers.addRule (hm : m.HasDistinctTriggers)
    (h : m.addRule rule = .ok m') : m'.HasDistinctTriggers := by
  obtain ⟨hfree, rfl⟩ := addRule_eq_ok_iff.mp h
  have hmem (other : Rule) : other ∈ m.rules.insert rule ↔ other = rule ∨ other ∈ m.rules := by
    rw [Std.ExtTreeSet.mem_insert, Std.compare_eq_iff_eq, eq_comm]
  intro first hfirst second hsecond htrigger
  rcases (hmem first).mp hfirst with rfl | hold
  · rcases (hmem second).mp hsecond with rfl | hold'
    · rfl
    · exact absurd htrigger.symm (hfree second hold')
  · rcases (hmem second).mp hsecond with rfl | hold'
    · exact absurd htrigger (hfree first hold)
    · exact hm first hold second hold' htrigger

theorem HasDistinctTriggers.perform (hm : m.HasDistinctTriggers) (edit : Edit) :
    (edit.perform m).HasDistinctTriggers := by
  cases edit with
  | add rule =>
      simp only [Edit.perform]
      split
      · rename_i hadd
        exact hm.addRule hadd
      · -- the rule was refused
        exact hm
  | remove rule =>
      intro first hfirst second hsecond
      exact hm first (Std.ExtTreeSet.mem_of_mem_erase hfirst) second
        (Std.ExtTreeSet.mem_of_mem_erase hsecond)

theorem HasDistinctTriggers.foldl_perform (hm : m.HasDistinctTriggers) (edits : List Edit) :
    (edits.foldl Edit.perform m).HasDistinctTriggers := by
  induction edits generalizing m with
  | nil => exact hm
  | cons edit edits ih => exact ih (hm.perform edit)

theorem hasDistinctTriggers_of_rules_eq_empty (h : m.rules = ∅) : m.HasDistinctTriggers := by
  intro rule hrule
  simp [h] at hrule

/-- Where triggers are distinct there is nothing to choose from. -/
theorem HasDistinctTriggers.select_ne (hm : m.HasDistinctTriggers) :
    m.select state next top ≠ .error .nonDeterministic := by
  intro h
  rcases m.select_cases state next top with
    ⟨_, -, -, h'⟩ | ⟨-, ⟨-, h'⟩ | ⟨_, -, h'⟩ | ⟨rule, hrule, other, hother, hne, -⟩⟩
  · simp [h] at h'
  · simp [h] at h'
  · simp [h] at h'
  · exact hne (hm rule (mem_rules_of_mem_preferred hrule) other (mem_rules_of_mem_preferred hother)
      (trigger_eq_of_mem_preferred hrule hother))

theorem Ends.ne_nonDeterministic (h : m.Ends limit passed last run)
    (hm : m.HasDistinctTriggers) : run.verdict ≠ .error .nonDeterministic := by
  cases h with
  | empty hstack =>
      simp only
      split <;> simp
  | stuck htop hselect =>
      intro hverdict
      obtain rfl := Except.error.inj hverdict
      exact hm.select_ne hselect
  | endless hrule hinput hrow => simp

/-! ### Configurations -/

theorem Ends.configurations_eq (h : m.Ends limit passed last run) :
    run.configurations = passed ++ [last] := by
  cases h <;> simp [Run.configurations]

theorem Valid.declares_of_follows (hvalid : m.Valid) (hc : m.Declares c) (h : m.Follows c d) :
    m.Declares d := by
  obtain ⟨rule, hrule, rfl⟩ := h
  have huse := hvalid.rule rule hrule.mem
  refine ⟨huse.target, fun symbol hsymbol => ?_⟩
  rcases List.mem_append.mp hsymbol with hreplacement | htail
  · exact huse.replacement symbol hreplacement
  · exact hc.stack symbol (List.mem_of_mem_tail htail)

theorem Valid.declares_of_trail (hvalid : m.Valid) (h : m.Trail c passed last)
    (hc : m.Declares c) : ∀ d ∈ passed ++ [last], m.Declares d := by
  induction h with
  | refl c => simpa using hc
  | head hfollows _ ih =>
      exact List.forall_mem_cons.mpr ⟨hc, ih (hvalid.declares_of_follows hc hfollows)⟩

theorem Valid.declares_start (hvalid : m.Valid) (input : List Char) :
    m.Declares ⟨m.start, input, [m.startStack]⟩ where
  state := hvalid.start
  stack := by simpa using hvalid.startStack

/-! ### Recognition -/

/-- Validation accepts exactly the valid automata. These have distinct triggers, as do those made
from no rules by adding and removing rules. Where triggers are distinct no verdict is that rules
compete, and a valid automaton keeps to what it declares. -/
theorem validate_deterministic (m : Pushdown) :
    (m.validate = .ok () ↔ m.Valid) ∧
    (m.validate = .ok () → m.HasDistinctTriggers) ∧
    (m.rules = ∅ → ∀ edits : List Edit, (edits.foldl Edit.perform m).HasDistinctTriggers) ∧
    (m.HasDistinctTriggers → ∀ input, (m.recognize input).verdict ≠ .error .nonDeterministic) ∧
    (m.validate = .ok () → ∀ input, ∀ c ∈ (m.recognize input).configurations, m.Declares c) := by
  refine ⟨validate_eq_ok_iff, fun h => ?_, fun h => ?_, fun h input => ?_, fun h input => ?_⟩
  · exact (validate_eq_ok_iff.mp h).hasDistinctTriggers
  · exact (hasDistinctTriggers_of_rules_eq_empty h).foldl_perform
  · obtain ⟨passed, last, -, -, hends⟩ := m.exists_trail_recognize input
    exact hends.ne_nonDeterministic h
  · have hvalid := validate_eq_ok_iff.mp h
    obtain ⟨passed, last, htrail, -, hends⟩ := m.exists_trail_recognize input
    rw [hends.configurations_eq]
    exact hvalid.declares_of_trail htrail (hvalid.declares_start _)

theorem validate_deterministic_bracketsThenStop :
    (bracketsThenStop.validate = .ok () ∧ bracketsThenStop.HasDistinctTriggers ∧
      (bracketsThenStop.recognize "(.").verdict ≠ .error .nonDeterministic ∧
      ∀ c ∈ (bracketsThenStop.recognize "(.").configurations, bracketsThenStop.Declares c) ∧
    { bracketsThenStop with rules := ∅ }.rules = ∅ ∧
      ([Edit.add ⟨"q0", some '(', 'Z', "q0", "(Z"⟩, .add ⟨"q0", some '(', 'Z', "q1", "Z"⟩,
        .remove ⟨"q0", some '(', 'Z', "q0", "(Z"⟩, .add ⟨"q0", some '(', 'Z', "q1", "Z"⟩].foldl
          Edit.perform { bracketsThenStop with rules := ∅ }).HasDistinctTriggers := by
  have hvalid : bracketsThenStop.validate = .ok () := eq_ok_of_toOption (by decide +kernel)
  obtain ⟨-, htriggers, -, hverdict, hdeclares⟩ := validate_deterministic bracketsThenStop
  obtain ⟨-, -, hedits, -⟩ := validate_deterministic { bracketsThenStop with rules := ∅ }
  exact ⟨⟨hvalid, htriggers hvalid, hverdict (htriggers hvalid) "(.", hdeclares hvalid "(."⟩, rfl,
    hedits rfl _⟩

end Pushdown

end FormalLanguages.Automaton
