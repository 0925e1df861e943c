import FormalLanguages.Proofs.ClosedGrammar
import FormalLanguages.Proofs.Texts
import Mathlib.Data.List.Nodup
import Mathlib.Tactic.Tauto

/-!
Legible alphabets. No symbol has a character that means something in a rule text or in a list of
names, and no name of one character is a terminal. Reading an alphabet succeeds exactly when its
symbols are distinct and legible beside the other alphabet.
-/

namespace FormalLanguages

/-- A non-empty text without the signs of rule texts and of lists of names. -/
structure IsName (name : String) : Prop where
  ne_empty : name ≠ ""
  not_reserved : ∀ c ∈ name.toList, isReserved c = false
  not_separator : ∀ c ∈ name.toList, isNameSeparator c = false

theorem isBlank_eq_false {c : Char} (h : isReserved c = false) : Text.isBlank c = false := by
  simp only [isReserved, Bool.or_eq_false_iff] at h
  exact h.2

theorem IsName.trim_eq_self {name : String} (h : IsName name) :
    Text.trim name.toList = name.toList :=
  Text.trim_eq_self fun c hc => isBlank_eq_false (h.not_reserved c hc)

/-- A name that is no terminal, whatever the terminals are. -/
structure IsLongName (name : String) : Prop extends IsName name where
  one_lt_length : 1 < name.length

namespace Grammar

/-- The alphabets can be listed, and rule texts over them can be read back. -/
structure Legible (g : Grammar) : Prop where
  letter : ∀ c ∈ g.terminals, isReserved c = false
  name : ∀ name ∈ g.nonTerminals, IsName name
  /-- No name of one character is a terminal. -/
  apart : ∀ c ∈ g.terminals, String.singleton c ∉ g.nonTerminals

variable {g g' : Grammar} {text : String}

theorem legible_empty : Grammar.empty.Legible where
  letter := by simp [Grammar.empty]
  name := by simp [Grammar.empty]
  apart := by simp [Grammar.empty]

theorem Legible.of_alphabets (hg : g.Legible) (hterminals : g'.terminals = g.terminals)
    (hnames : g'.nonTerminals = g.nonTerminals) : g'.Legible where
  letter := by simpa [hterminals] using hg.letter
  name := by simpa [hnames] using hg.name
  apart := by simpa [hterminals, hnames] using hg.apart

/-- Symbols may be dropped, and long names may be added. -/
theorem Legible.of_subset (hg : g.Legible) (hterminals : ∀ c ∈ g'.terminals, c ∈ g.terminals)
    (hnames : ∀ name ∈ g'.nonTerminals, name ∈ g.nonTerminals ∨ IsLongName name) :
    g'.Legible where
  letter c hc := hg.letter c (hterminals c hc)
  name name hname := (hnames name hname).elim (hg.name name) IsLongName.toIsName
  apart c hc hname := by
    rcases hnames _ hname with hold | hlong
    · exact hg.apart c (hterminals c hc) hold
    · simpa using hlong.one_lt_length

/-! ### Distinct symbols -/

section

variable {α : Type} [Ord α] [Std.TransOrd α] {known : Std.ExtTreeSet α} {items : List α}

/-- The items are distinct and not known. -/
def AreNew (known : Std.ExtTreeSet α) (items : List α) : Prop :=
  items.Nodup ∧ ∀ item ∈ items, item ∉ known

theorem areNew_nil : AreNew known [] :=
  ⟨List.nodup_nil, fun _ hitem => absurd hitem List.not_mem_nil⟩

theorem areNew_empty_iff : AreNew ∅ items ↔ items.Nodup := by
  simp [AreNew]

theorem areNew_cons_iff [Std.LawfulEqOrd α] {item : α} :
    AreNew known (item :: items) ↔ item ∉ known ∧ AreNew (known.insert item) items := by
  simp only [AreNew, List.nodup_cons, List.forall_mem_cons, Std.ExtTreeSet.mem_insert,
    Std.compare_eq_iff_eq, not_or]
  constructor
  · rintro ⟨⟨hitem, hnodup⟩, hknown, hitems⟩
    refine ⟨hknown, hnodup, fun other hother => ⟨?_, hitems other hother⟩⟩
    rintro rfl
    exact hitem hother
  · rintro ⟨hknown, hnodup, hitems⟩
    exact ⟨⟨fun hitem => (hitems item hitem).1 rfl, hnodup⟩, hknown,
      fun other hother => (hitems other hother).2⟩

theorem nodup_toList [Std.LawfulEqOrd α] (set : Std.ExtTreeSet α) : set.toList.Nodup :=
  set.distinct_toList.imp fun hne heq => hne (Std.compare_eq_iff_eq.mpr heq)

/-- A set is made up of any list of its members. -/
theorem insertMany_eq_of_mem_iff [DecidableEq α] [Std.LawfulEqOrd α] {set : Std.ExtTreeSet α}
    (h : ∀ item, item ∈ items ↔ item ∈ set) : (∅ : Std.ExtTreeSet α).insertMany items = set := by
  refine Std.ExtTreeSet.ext_mem fun item => ?_
  simp [Std.ExtTreeSet.mem_insertMany_list, h]

theorem insertMany_toList [DecidableEq α] [Std.LawfulEqOrd α] (set : Std.ExtTreeSet α) :
    (∅ : Std.ExtTreeSet α).insertMany set.toList = set :=
  insertMany_eq_of_mem_iff fun _ => Std.ExtTreeSet.mem_toList

end

/-! ### Terminals -/

/-- Terminals are read when they are distinct and none is reserved or a name. -/
theorem readTerminals_eq_ok {names : Std.ExtTreeSet String} {known result : Std.ExtTreeSet Char}
    {letters : List Char} : readTerminals names known letters = .ok result ↔
      AreNew known letters ∧ (∀ c ∈ letters, isReserved c = false ∧ String.singleton c ∉ names) ∧
        known.insertMany letters = result := by
  induction letters generalizing known with
  | nil => simp [readTerminals, areNew_nil]
  | cons c letters ih =>
      rw [readTerminals, areNew_cons_iff, List.forall_mem_cons]
      split
      · simp_all
      · split
        · simp_all
        · split
          · simp_all
          · -- the character is accepted
            rw [ih, Std.ExtTreeSet.insertMany_cons]
            simp_all

/-- The characters of the text can be the terminals: none is reserved, listed twice or a name. -/
structure TakesTerminals (g : Grammar) (text : String) : Prop where
  not_reserved : ∀ c ∈ Text.trim text.toList, isReserved c = false
  nodup : (Text.trim text.toList).Nodup
  apart : ∀ c ∈ Text.trim text.toList, String.singleton c ∉ g.nonTerminals

/-- The grammar with the characters of the text for its terminals. -/
def withTerminals (text : String) (g : Grammar) : Grammar :=
  { g with terminals := (∅ : Std.ExtTreeSet Char).insertMany (Text.trim text.toList), rules := ∅ }

theorem mem_withTerminals {c : Char} :
    c ∈ (g.withTerminals text).terminals ↔ c ∈ Text.trim text.toList := by
  simp [withTerminals, Std.ExtTreeSet.mem_insertMany_list]

theorem readTerminals_eq_ok_iff_takes {result : Std.ExtTreeSet Char} :
    readTerminals g.nonTerminals ∅ (Text.trim text.toList) = .ok result ↔
      g.TakesTerminals text ∧ (g.withTerminals text).terminals = result := by
  rw [readTerminals_eq_ok, areNew_empty_iff]
  constructor
  · rintro ⟨hnodup, hletters, rfl⟩
    exact ⟨⟨fun c hc => (hletters c hc).1, hnodup, fun c hc => (hletters c hc).2⟩, rfl⟩
  · rintro ⟨htakes, rfl⟩
    exact ⟨htakes.nodup, fun c hc => ⟨htakes.not_reserved c hc, htakes.apart c hc⟩, rfl⟩

theorem setTerminals_eq_ok_iff :
    g.setTerminals text = .ok g' ↔ g.TakesTerminals text ∧ g.withTerminals text = g' := by
  rw [setTerminals, bind_eq_ok_iff_of_iff fun _ => readTerminals_eq_ok_iff_takes]
  exact and_congr_right fun _ => ⟨Except.ok.inj, congrArg Except.ok⟩

theorem Legible.setTerminals (hg : g.Legible) (h : g.setTerminals text = .ok g') : g'.Legible := by
  obtain ⟨htakes, rfl⟩ := setTerminals_eq_ok_iff.mp h
  exact ⟨fun c hc => htakes.not_reserved c (mem_withTerminals.mp hc), hg.name,
    fun c hc => htakes.apart c (mem_withTerminals.mp hc)⟩

/-! ### Non-terminals -/

theorem isTerminalName_iff {terminals : Std.ExtTreeSet Char} {letters : List Char} :
    isTerminalName terminals letters = true ↔ ∃ c ∈ terminals, letters = [c] := by
  unfold isTerminalName
  split
  · simp
  · rename_i hletters
    simp only [Bool.false_eq_true, false_iff]
    rintro ⟨c, -, rfl⟩
    exact hletters c rfl

/-- Names are read when they are distinct and none has a reserved character or is a terminal. -/
theorem readNonTerminals_eq_ok {terminals : Std.ExtTreeSet Char}
    {known result : Std.ExtTreeSet String} {names : List (List Char)} :
    readNonTerminals terminals known names = .ok result ↔
      AreNew known (names.map String.ofList) ∧
        (∀ letters ∈ names, (∀ c ∈ letters, isReserved c = false) ∧
          ∀ c ∈ terminals, letters ≠ [c]) ∧
        known.insertMany (names.map String.ofList) = result := by
  induction names generalizing known with
  | nil => simp [readNonTerminals, areNew_nil]
  | cons letters names ih =>
      have hterminal : isTerminalName terminals letters = true ↔
          ¬ ∀ c ∈ terminals, letters ≠ [c] := by simp [isTerminalName_iff]
      have hreserved : letters.any isReserved = true ↔ ¬ ∀ c ∈ letters, isReserved c = false := by
        simp
      simp only [readNonTerminals, hreserved, hterminal]
      rw [List.map_cons, areNew_cons_iff, List.forall_mem_cons]
      split
      · tauto
      · split
        · tauto
        · split
          · tauto
          · -- the name is accepted
            rw [ih, Std.ExtTreeSet.insertMany_cons]
            tauto

/-- The names in the text, which `listedNames_eq_iff` tells by its separators, can be the
non-terminals: none has a reserved character, is listed twice or is a terminal. -/
structure TakesNonTerminals (g : Grammar) (text : String) : Prop where
  not_reserved : ∀ letters ∈ listedNames text, ∀ c ∈ letters, isReserved c = false
  nodup : (listedNames text).Nodup
  apart : ∀ c, [c] ∈ listedNames text → c ∉ g.terminals

/-- The grammar with the names in the text for its non-terminals. -/
def withNonTerminals (text : String) (g : Grammar) : Grammar :=
  let nonTerminals := (∅ : Std.ExtTreeSet String).insertMany
    ((listedNames text).map String.ofList)
  { g with nonTerminals, goal := g.goal.filter (· ∈ nonTerminals), rules := ∅ }

theorem mem_withNonTerminals {name : String} :
    name ∈ (g.withNonTerminals text).nonTerminals ↔ name.toList ∈ listedNames text := by
  simp only [withNonTerminals, Std.ExtTreeSet.mem_insertMany_list, List.contains_iff_mem,
    List.mem_map]
  constructor
  · rintro (hempty | ⟨letters, hletters, rfl⟩)
    · simp at hempty
    · simpa using hletters
  · intro h
    exact .inr ⟨name.toList, h, String.ofList_toList⟩

theorem readNonTerminals_eq_ok_iff_takes {result : Std.ExtTreeSet String} :
    readNonTerminals g.terminals ∅ (listedNames text) = .ok result ↔
      g.TakesNonTerminals text ∧ (g.withNonTerminals text).nonTerminals = result := by
  have hinjective : Function.Injective String.ofList := fun _ _ => String.ofList_injective
  rw [readNonTerminals_eq_ok, areNew_empty_iff, List.nodup_map_iff hinjective]
  constructor
  · rintro ⟨hnodup, hnames, rfl⟩
    refine ⟨⟨fun letters hletters => (hnames letters hletters).1, hnodup, ?_⟩, rfl⟩
    exact fun c hletters hc => (hnames [c] hletters).2 c hc rfl
  · rintro ⟨htakes, rfl⟩
    refine ⟨htakes.nodup, fun letters hletters => ⟨htakes.not_reserved letters hletters, ?_⟩, rfl⟩
    rintro c hc rfl
    exact htakes.apart c hletters hc

theorem setNonTerminals_eq_ok_iff :
    g.setNonTerminals text = .ok g' ↔
      g.TakesNonTerminals text ∧ g.withNonTerminals text = g' := by
  rw [setNonTerminals, bind_eq_ok_iff_of_iff fun _ => readNonTerminals_eq_ok_iff_takes]
  exact and_congr_right fun _ => ⟨Except.ok.inj, congrArg Except.ok⟩

/-- The listed names are the pieces of the text between separators, without the blanks around them
and without those that are blank altogether. -/
theorem listedNames_eq_iff {names : List (List Char)} : listedNames text = names ↔
    ∃ pieces, Text.Pieces isNameSeparator text.toList pieces ∧
      (pieces.map Text.trim).filter (· ≠ []) = names := by
  have hfilter (parts : List (List Char)) :
      parts.filter (!·.isEmpty) = parts.filter (· ≠ []) :=
    List.filter_congr fun part _ => by cases part <;> rfl
  simp only [listedNames, hfilter, ← Text.fields_eq_iff, exists_eq_left']

theorem of_mem_listedNames {letters : List Char} (h : letters ∈ listedNames text) :
    letters ≠ [] ∧ ∀ c ∈ letters, isNameSeparator c = false := by
  obtain ⟨h, hne⟩ := List.mem_filter.mp h
  obtain ⟨field, hfield, rfl⟩ := List.mem_map.mp h
  refine ⟨by simpa using hne, fun c hc => ?_⟩
  exact Text.not_separator_of_mem_fields hfield (Text.mem_of_mem_trim hc)

theorem Legible.setNonTerminals (hg : g.Legible) (h : g.setNonTerminals text = .ok g') :
    g'.Legible := by
  obtain ⟨htakes, rfl⟩ := setNonTerminals_eq_ok_iff.mp h
  refine ⟨hg.letter, fun name hname => ?_, fun c hc hname => ?_⟩
  · have hlisted := mem_withNonTerminals.mp hname
    obtain ⟨hne, hunseparated⟩ := of_mem_listedNames hlisted
    exact ⟨by simpa using hne, htakes.not_reserved _ hlisted, hunseparated⟩
  · have hlisted := mem_withNonTerminals.mp hname
    rw [String.toList_singleton] at hlisted
    exact htakes.apart c hlisted hc

end Grammar

end FormalLanguages
