import FormalLanguages.Proofs.History

/-!
Alphabets that are defined anew. A draft takes a text for its terminals, or for its non-terminals,
exactly when the listed symbols are distinct and legible beside its other alphabet. The new alphabet
then has these symbols and no others, every row is dropped, and a goal is kept as long as it is
declared; a refused text changes nothing. The two definitions test whether the alphabets are apart in
different ways that agree, so on a new draft it does not matter which of them comes first; and
wherever both orders succeed they lead to one draft.
-/

namespace FormalLanguages.Grammar.Draft

/-- The second draft is the first one with the characters of the text for its terminals and without
rows. -/
structure HasNewTerminals (d : Draft) (text : String) (d' : Draft) : Prop where
  terminals : ∀ c, c ∈ d'.terminals ↔ c ∈ Text.trim text.toList
  nonTerminals : d'.nonTerminals = d.nonTerminals
  goal : d'.goal = d.goal
  book : d'.book = ∅

/-- The second draft is the first one with the names in the text for its non-terminals and without
rows; it has the goal of the first one if this is still declared, and none otherwise. -/
structure HasNewNonTerminals (d : Draft) (text : String) (d' : Draft) : Prop where
  terminals : d'.terminals = d.terminals
  nonTerminals : ∀ name, name ∈ d'.nonTerminals ↔ name.toList ∈ listedNames text
  goal : ∀ name, d'.goal = some name ↔ d.goal = some name ∧ name ∈ d'.nonTerminals
  book : d'.book = ∅

variable {d d' : Draft} {text names : String}

/-! ### One definition -/

/-- The draft with the characters of the text for its terminals. -/
def withTerminals (text : String) (d : Draft) : Draft :=
  { d with terminals := (d.alphabets.withTerminals text).terminals, book := ∅ }

/-- The draft with the names in the text for its non-terminals. -/
def withNonTerminals (text : String) (d : Draft) : Draft :=
  let nonTerminals := (d.alphabets.withNonTerminals text).nonTerminals
  { d with nonTerminals, goal := d.goal.filter (· ∈ nonTerminals), book := ∅ }

theorem hasNewTerminals_withTerminals (d : Draft) (text : String) :
    d.HasNewTerminals text (d.withTerminals text) :=
  ⟨fun _ => mem_withTerminals (g := d.alphabets), rfl, rfl, rfl⟩

theorem hasNewNonTerminals_withNonTerminals (d : Draft) (text : String) :
    d.HasNewNonTerminals text (d.withNonTerminals text) where
  terminals := rfl
  nonTerminals _ := mem_withNonTerminals (g := d.alphabets)
  goal name := by simp [withNonTerminals, Option.filter_eq_some_iff]
  book := rfl

theorem readTerminals_iff {letters : Std.ExtTreeSet Char} :
    readTerminals d.nonTerminals ∅ (Text.trim text.toList) = .ok letters ↔
      d.alphabets.TakesTerminals text ∧ (d.alphabets.withTerminals text).terminals = letters :=
  readTerminals_eq_ok_iff_takes (g := d.alphabets)

theorem readNonTerminals_iff {known : Std.ExtTreeSet String} :
    readNonTerminals d.terminals ∅ (listedNames names) = .ok known ↔
      d.alphabets.TakesNonTerminals names ∧
        (d.alphabets.withNonTerminals names).nonTerminals = known :=
  readNonTerminals_eq_ok_iff_takes (g := d.alphabets)

theorem on_setTerminals_eq_ok_iff : (setTerminals text).on d = (.ok (), d') ↔
    d.alphabets.TakesTerminals text ∧ d.withTerminals text = d' := by
  rw [(setTerminals_readsFirst text).on_eq_ok_iff]
  simp only [readTerminals_iff, and_assoc, exists_and_left, exists_eq_left', withTerminals]

theorem on_setNonTerminals_eq_ok_iff : (setNonTerminals names).on d = (.ok (), d') ↔
    d.alphabets.TakesNonTerminals names ∧ d.withNonTerminals names = d' := by
  rw [(setNonTerminals_readsFirst names).on_eq_ok_iff]
  simp only [readNonTerminals_iff, and_assoc, exists_and_left, exists_eq_left', withNonTerminals]

/-- An edit that succeeds under a condition, with a draft that has a property, is refused otherwise
and changes nothing then. -/
theorem taken_or_refused {edit : Edit Unit} {call : Grammar → Except Error Grammar}
    (hrefines : edit.Refines call) {condition : Prop} {property : Draft → Prop}
    (h : ∀ {result}, edit.on d = (.ok (), result) ↔ condition ∧ d' = result)
    (hproperty : property d') :
    condition ∧ (∃ result, edit.on d = (.ok (), result) ∧ property result) ∨
      ¬ condition ∧ ∃ error, edit.on d = (.error error, d) := by
  rcases hrefines.cases d with ⟨_, ⟨⟩, result, -, hon, -⟩ | ⟨error, -, hon⟩
  · obtain ⟨hcondition, rfl⟩ := h.mp hon
    exact .inl ⟨hcondition, d', hon, hproperty⟩
  · refine .inr ⟨fun hcondition => ?_, error, hon⟩
    have htaken := h.mpr ⟨hcondition, rfl⟩
    simp [hon] at htaken

/-! ### Both definitions -/

theorem withTerminals_withNonTerminals (d : Draft) (text names : String) :
    (d.withNonTerminals names).withTerminals text =
      (d.withTerminals text).withNonTerminals names := rfl

/-- The alphabets in two texts are apart, whichever of them is there first. -/
theorem takes_comm :
    empty.TakesTerminals text ∧ (empty.withTerminals text).TakesNonTerminals names ↔
      empty.TakesNonTerminals names ∧ (empty.withNonTerminals names).TakesTerminals text := by
  constructor
  · rintro ⟨hterminals, hnames⟩
    refine ⟨⟨hnames.not_reserved, hnames.nodup, by simp [empty]⟩,
      ⟨hterminals.not_reserved, hterminals.nodup, fun c hc hname => ?_⟩⟩
    rw [mem_withNonTerminals, String.toList_singleton] at hname
    exact hnames.apart c hname (mem_withTerminals.mpr hc)
  · rintro ⟨hnames, hterminals⟩
    refine ⟨⟨hterminals.not_reserved, hterminals.nodup, by simp [empty]⟩,
      ⟨hnames.not_reserved, hnames.nodup, fun c hname hc => ?_⟩⟩
    refine hterminals.apart c (mem_withTerminals.mp hc) ?_
    rwa [mem_withNonTerminals, String.toList_singleton]

/-- Sets the terminals first and the non-terminals after them. -/
def setTerminalsFirst (text names : String) : Edit Unit := do
  setTerminals text
  setNonTerminals names

/-- Sets the non-terminals first and the terminals after them. -/
def setNonTerminalsFirst (text names : String) : Edit Unit := do
  setNonTerminals names
  setTerminals text

theorem on_setTerminalsFirst_eq_ok_iff :
    (setTerminalsFirst text names).on d = (.ok (), d') ↔
      (d.alphabets.TakesTerminals text ∧
        (d.withTerminals text).alphabets.TakesNonTerminals names) ∧
        (d.withTerminals text).withNonTerminals names = d' := by
  rw [setTerminalsFirst, InPlace.on_bind_eq_ok_iff]
  simp only [on_setTerminals_eq_ok_iff, on_setNonTerminals_eq_ok_iff]
  constructor
  · rintro ⟨_, ⟨hterminals, rfl⟩, hnames, hd⟩
    exact ⟨⟨hterminals, hnames⟩, hd⟩
  · rintro ⟨⟨hterminals, hnames⟩, hd⟩
    exact ⟨_, ⟨hterminals, rfl⟩, hnames, hd⟩

theorem on_setNonTerminalsFirst_eq_ok_iff :
    (setNonTerminalsFirst text names).on d = (.ok (), d') ↔
      (d.alphabets.TakesNonTerminals names ∧
        (d.withNonTerminals names).alphabets.TakesTerminals text) ∧
        (d.withTerminals text).withNonTerminals names = d' := by
  rw [setNonTerminalsFirst, InPlace.on_bind_eq_ok_iff, ← withTerminals_withNonTerminals]
  simp only [on_setTerminals_eq_ok_iff, on_setNonTerminals_eq_ok_iff]
  constructor
  · rintro ⟨_, ⟨hnames, rfl⟩, hterminals, hd⟩
    exact ⟨⟨hnames, hterminals⟩, hd⟩
  · rintro ⟨⟨hnames, hterminals⟩, hd⟩
    exact ⟨_, ⟨hnames, rfl⟩, hterminals, hd⟩

/-- A draft takes a new alphabet or refuses it, and a refusal leaves it as it is. A new draft takes
two alphabets in one order exactly when it takes them in the other one, with the same result; and
whatever the draft is, two orders that succeed have one result. -/
theorem alphabets_exact (d : Draft) :
    (∀ text,
      d.alphabets.TakesTerminals text ∧
          (∃ d', (setTerminals text).on d = (.ok (), d') ∧ d.HasNewTerminals text d') ∨
        ¬ d.alphabets.TakesTerminals text ∧
          ∃ error, (setTerminals text).on d = (.error error, d)) ∧
    (∀ text,
      d.alphabets.TakesNonTerminals text ∧
          (∃ d', (setNonTerminals text).on d = (.ok (), d') ∧ d.HasNewNonTerminals text d') ∨
        ¬ d.alphabets.TakesNonTerminals text ∧
          ∃ error, (setNonTerminals text).on d = (.error error, d)) ∧
    (∀ text names d', (setTerminalsFirst text names).on {} = (.ok (), d') ↔
      (setNonTerminalsFirst text names).on {} = (.ok (), d')) ∧
    ∀ text names d₁ d₂, (setTerminalsFirst text names).on d = (.ok (), d₁) →
      (setNonTerminalsFirst text names).on d = (.ok (), d₂) → d₁ = d₂ := by
  refine ⟨fun text => ?_, fun text => ?_, fun text names d' => ?_, fun text names d₁ d₂ h₁ h₂ => ?_⟩
  · exact taken_or_refused (setTerminals_refines text) on_setTerminals_eq_ok_iff
      (hasNewTerminals_withTerminals d text)
  · exact taken_or_refused (setNonTerminals_refines text) on_setNonTerminals_eq_ok_iff
      (hasNewNonTerminals_withNonTerminals d text)
  · rw [on_setTerminalsFirst_eq_ok_iff, on_setNonTerminalsFirst_eq_ok_iff]
    exact and_congr_left fun _ => takes_comm
  · exact (on_setTerminalsFirst_eq_ok_iff.mp h₁).2.symm.trans
      (on_setNonTerminalsFirst_eq_ok_iff.mp h₂).2

/-- A declared goal outlasts new alphabets in either order. -/
theorem alphabets_exact_nullableGoal : ∃ d₁ d₂,
    (setTerminalsFirst " cd" "S; D,E").on (ofGrammar nullableGoal) = (.ok (), d₁) ∧
      (setNonTerminalsFirst " cd" "S; D,E").on (ofGrammar nullableGoal) = (.ok (), d₂) ∧
      d₁ = d₂ ∧ d₁.goal = some "S" := by
  have hletters : ((setTerminalsFirst " cd" "S; D,E").on (ofGrammar nullableGoal)).1.toOption =
      some () := by decide +kernel
  have hnames : ((setNonTerminalsFirst " cd" "S; D,E").on (ofGrammar nullableGoal)).1.toOption =
      some () := by decide +kernel
  have hgoal : ((setTerminalsFirst " cd" "S; D,E").on (ofGrammar nullableGoal)).2.goal =
      some "S" := by decide +kernel
  rcases h₁ : (setTerminalsFirst " cd" "S; D,E").on (ofGrammar nullableGoal) with ⟨answer₁, d₁⟩
  rcases h₂ : (setNonTerminalsFirst " cd" "S; D,E").on (ofGrammar nullableGoal) with ⟨answer₂, d₂⟩
  rw [h₁] at hletters hgoal
  rw [h₂] at hnames
  obtain rfl : answer₁ = .ok () := eq_ok_of_toOption hletters
  obtain rfl : answer₂ = .ok () := eq_ok_of_toOption hnames
  have heq := (alphabets_exact (ofGrammar nullableGoal)).2.2.2 " cd" "S; D,E" d₁ d₂ h₁ h₂
  exact ⟨d₁, d₂, rfl, rfl, heq, hgoal⟩

-- where an old name is in the way of a terminal, only one order succeeds, and the other one is
-- refused halfway
example :
    ((setTerminalsFirst "A" "S").on (ofGrammar nullableGoal)).1.toOption = none ∧
      ((setNonTerminalsFirst "A" "S").on (ofGrammar nullableGoal)).1.toOption = some () := by
  decide +kernel

end FormalLanguages.Grammar.Draft
