import FormalLanguages.Proofs.Automaton.Moves

/-!
The choice of a rule. Among the rules for a state and a stack top, those that read the next letter
come before those that read nothing, and a rule is selected when no other one with its trigger
competes with it. So the choice fails for want of a rule, on an undeclared letter, or between two
rules with one trigger.
-/

namespace FormalLanguages.Automaton.Pushdown

/-- The rule applies in a configuration: it is the only one with its trigger, and it reads nothing
only where no rule reads the next letter. A letter that is next has to be declared. -/
structure Selects (m : Pushdown) (c : Configuration) (rule : Rule) : Prop where
  mem : rule ∈ m.rules
  source : rule.source = c.state
  top : c.stack.head? = some rule.top
  input : rule.input = none ∨ rule.input = c.rest.head?
  known : ∀ letter, c.rest.head? = some letter → letter ∈ m.alphabet
  only : ∀ other ∈ m.rules, other.trigger = rule.trigger → other = rule
  priority : rule.input = none → ∀ other ∈ m.rules, other.source = c.state →
    c.stack.head? = some other.top → other.input = c.rest.head? → other.input = none

variable {m : Pushdown} {rule other : Rule} {state : String} {next : Option Char} {top : Char}

/-! ### Preferred rules -/

theorem mem_preferred_iff {rules : List Rule} : rule ∈ preferred rules ↔
    rule ∈ rules ∧ (rule.input = none → ∀ other ∈ rules, other.input = none) := by
  simp only [preferred, List.isEmpty_iff]
  split
  · rename_i hreading
    have hnone : ∀ other ∈ rules, other.input = none := by simpa using hreading
    exact ⟨fun h => ⟨h, fun _ => hnone⟩, fun h => h.1⟩
  · rename_i hreading
    obtain ⟨reader, hreader⟩ := List.exists_mem_of_ne_nil _ hreading
    obtain ⟨hmem, hreads⟩ := List.mem_filter.mp hreader
    rw [List.mem_filter, Option.isSome_iff_ne_none]
    refine and_congr_right fun _ => ⟨fun hne hnone => absurd hnone hne, fun h hnone => ?_⟩
    simp [h hnone reader hmem] at hreads

theorem mem_rules_of_mem_preferred (h : rule ∈ preferred (m.candidates state next top)) :
    rule ∈ m.rules :=
  (mem_candidates_iff.mp (mem_of_mem_preferred h)).1

/-- Rules that compete have one trigger. -/
theorem trigger_eq_of_mem_preferred (h : rule ∈ preferred (m.candidates state next top))
    (h' : other ∈ preferred (m.candidates state next top)) : rule.trigger = other.trigger := by
  obtain ⟨hmem, hfirst⟩ := mem_preferred_iff.mp h
  obtain ⟨hmem', hfirst'⟩ := mem_preferred_iff.mp h'
  obtain ⟨-, hsource, htop, hinput⟩ := mem_candidates_iff.mp hmem
  obtain ⟨-, hsource', htop', hinput'⟩ := mem_candidates_iff.mp hmem'
  have hsame : rule.input = other.input := by
    by_cases hnone : rule.input = none
    · rw [hnone, hfirst hnone other hmem']
    · have hnone' : other.input ≠ none := fun hnone' => hnone (hfirst' hnone' rule hmem)
      rw [hinput.resolve_left hnone, hinput'.resolve_left hnone']
  simp [Rule.trigger, hsource, hsource', htop, htop', hsame]

/-- What has the trigger of a rule that competes competes as well. -/
theorem mem_preferred_of_trigger (h : rule ∈ preferred (m.candidates state next top))
    (hother : other ∈ m.rules) (htrigger : other.trigger = rule.trigger) :
    other ∈ preferred (m.candidates state next top) := by
  obtain ⟨hsource, hinput, htop⟩ := Trigger.mk.inj htrigger
  simpa only [mem_preferred_iff, mem_candidates_iff, hsource, hinput, htop, hother, true_and,
    mem_rules_of_mem_preferred h] using h

theorem nodup_preferred_candidates : (preferred (m.candidates state next top)).Nodup := by
  simp only [preferred]
  split
  · exact nodup_candidates
  · exact nodup_candidates.filter _

theorem eq_nil_of_preferred_eq_nil {rules : List Rule} (h : preferred rules = []) : rules = [] := by
  simp only [preferred, List.isEmpty_iff] at h
  split at h
  · exact h
  · rename_i hreading
    exact absurd h hreading

/-! ### Answers -/

/-- What a choice can answer, and when. -/
theorem select_cases (m : Pushdown) (state : String) (next : Option Char) (top : Char) :
    (∃ c, next = some c ∧ c ∉ m.alphabet ∧ m.select state next top = .error (.foreignSymbol c)) ∨
    (∀ c, next = some c → c ∈ m.alphabet) ∧
      (m.candidates state next top = [] ∧
          m.select state next top = .error (.noRule state next top) ∨
        (∃ rule, preferred (m.candidates state next top) = [rule] ∧
          m.select state next top = .ok rule) ∨
        ∃ rule ∈ preferred (m.candidates state next top),
          ∃ other ∈ preferred (m.candidates state next top), rule ≠ other ∧
            m.select state next top = .error .nonDeterministic) := by
  by_cases hknown : ∀ c, next = some c → c ∈ m.alphabet
  · have hfilter : next.filter (· ∉ m.alphabet) = none := by
      simpa [Option.filter_eq_none_iff] using hknown
    have hnodup : (preferred (m.candidates state next top)).Nodup := nodup_preferred_candidates
    refine .inr ⟨hknown, ?_⟩
    simp only [select, hfilter]
    cases hpreferred : preferred (m.candidates state next top) with
    | nil => exact .inl ⟨eq_nil_of_preferred_eq_nil hpreferred, rfl⟩
    | cons rule others =>
        cases others with
        | nil => exact .inr (.inl ⟨rule, rfl, rfl⟩)
        | cons other others =>
            rw [hpreferred, List.nodup_cons] at hnodup
            have hne : rule ≠ other := fun heq => hnodup.1 (by simp [heq])
            exact .inr (.inr ⟨rule, by simp, other, by simp, hne, rfl⟩)
  · simp only [not_forall] at hknown
    obtain ⟨c, rfl, hc⟩ := hknown
    have hfilter : (some c).filter (· ∉ m.alphabet) = some c := by simp [Option.filter, hc]
    exact .inl ⟨c, rfl, hc, by simp only [select, hfilter]⟩

theorem selects_iff {c : Configuration} (htop : c.stack.head? = some top) :
    m.Selects c rule ↔ (∀ letter, c.rest.head? = some letter → letter ∈ m.alphabet) ∧
      rule ∈ preferred (m.candidates c.state c.rest.head? top) ∧
      ∀ other ∈ m.rules, other.trigger = rule.trigger → other = rule := by
  simp only [mem_preferred_iff, mem_candidates_iff]
  constructor
  · intro h
    have hsame : rule.top = top := Option.some.inj (h.top.symm.trans htop)
    refine ⟨h.known, ⟨⟨h.mem, h.source, hsame, h.input⟩, ?_⟩, h.only⟩
    rintro hnone other ⟨hother, hsource, rfl, hinput⟩
    exact hinput.elim id (h.priority hnone other hother hsource htop)
  · rintro ⟨hknown, ⟨⟨hmem, hsource, rfl, hinput⟩, hfirst⟩, honly⟩
    refine ⟨hmem, hsource, htop, hinput, hknown, honly, ?_⟩
    intro hnone other hother hsource' htop' hinput'
    have hsame : other.top = rule.top := Option.some.inj (htop'.symm.trans htop)
    exact hfirst hnone other ⟨hother, hsource', hsame, .inr hinput'⟩

/-- The choice answers with the rule that applies. -/
theorem select_eq_ok_iff {c : Configuration} (htop : c.stack.head? = some top) :
    m.select c.state c.rest.head? top = .ok rule ↔ m.Selects c rule := by
  rw [selects_iff htop]
  rcases m.select_cases c.state c.rest.head? top with
    ⟨letter, hnext, hforeign, herror⟩ |
    ⟨hknown, ⟨hnone, herror⟩ | ⟨only, honly, hok⟩ | ⟨first, hfirst, second, hsecond, hne, herror⟩⟩
  · rw [herror]
    exact ⟨fun h => absurd h (by simp), fun h => absurd (h.1 letter hnext) hforeign⟩
  · rw [herror, hnone]
    exact ⟨fun h => absurd h (by simp), fun h => by simp [mem_preferred_iff] at h⟩
  · have hrule : only ∈ preferred (m.candidates c.state c.rest.head? top) := by simp [honly]
    rw [hok]
    constructor
    · intro h
      obtain rfl : only = rule := Except.ok.inj h
      refine ⟨hknown, hrule, fun other hother htrigger => ?_⟩
      simpa [honly] using mem_preferred_of_trigger hrule hother htrigger
    · rintro ⟨-, hpreferred, -⟩
      rw [honly, List.mem_singleton] at hpreferred
      rw [hpreferred]
  · rw [herror]
    refine ⟨fun h => absurd h (by simp), ?_⟩
    rintro ⟨-, hrule, honly⟩
    -- both competitors have the trigger of the rule
    have heq := honly first (mem_rules_of_mem_preferred hfirst)
      (trigger_eq_of_mem_preferred hfirst hrule)
    have heq' := honly second (mem_rules_of_mem_preferred hsecond)
      (trigger_eq_of_mem_preferred hsecond hrule)
    exact absurd (heq.trans heq'.symm) hne

end FormalLanguages.Automaton.Pushdown
