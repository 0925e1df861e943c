import FormalLanguages.Proofs.Documents
import Mathlib.Logic.Relation

/-!
Loading documents. Every alternative of an entry is judged over the alphabets alone, so a document
with accepted alphabets and goal is refused with one error for each alternative that would be
refused alone, and otherwise holds the rules that its alternatives state. Hence it only matters
which alternatives a document lists, and not in which order, how often or in which entries.
-/

namespace FormalLanguages.Grammar

open Relation

namespace Entry

/-- The alternatives of an entry, with `λ` for the placeholder. -/
def alternatives (entry : Entry) : List String :=
  (Text.fields (· == alternativeBar) entry.body.toList).map fun alternative =>
    String.ofList (Text.replaceAll lambdaPlaceholder.toList [lambda] alternative)

theorem ruleTexts_eq (entry : Entry) : entry.ruleTexts =
    entry.alternatives.map fun alternative =>
      entry.head ++ String.singleton arrow ++ alternative := by
  rw [ruleTexts, alternatives, List.map_map]
  rfl

/-- Another list of entries with the same alternatives: the entries in another order, one of them
once more, or the first one cut in two at a bar. -/
inductive Relists : List Entry → List Entry → Prop where
  | reorder {entries entries' : List Entry} (h : entries.Perm entries') : Relists entries entries'
  | again {entry : Entry} {entries : List Entry} (h : entry ∈ entries) :
      Relists entries (entry :: entries)
  | cut (head left right : String) (entries : List Entry) :
      Relists (⟨head, left ++ String.singleton alternativeBar ++ right⟩ :: entries)
        (⟨head, left⟩ :: ⟨head, right⟩ :: entries)

/-- An entry that is cut in two at a bar keeps its rule texts. -/
theorem ruleTexts_append (head left right : String) :
    ruleTexts ⟨head, left ++ String.singleton alternativeBar ++ right⟩ =
      ruleTexts ⟨head, left⟩ ++ ruleTexts ⟨head, right⟩ := by
  have hbody : (left ++ String.singleton alternativeBar ++ right).toList =
      left.toList ++ alternativeBar :: right.toList := by simp
  simp only [ruleTexts, hbody]
  rw [Text.fields_append (by simp), List.map_append]

/-- Lists of entries with the same alternatives have the same rule texts. -/
theorem mem_flatMap_ruleTexts_iff {entries entries' : List Entry}
    (h : EqvGen Relists entries entries') (text : String) :
    text ∈ entries.flatMap ruleTexts ↔ text ∈ entries'.flatMap ruleTexts := by
  induction h with
  | rel entries entries' h =>
      cases h with
      | reorder h => simp only [List.mem_flatMap, h.mem_iff]
      | @again entry entries h =>
          rw [List.flatMap_cons, List.mem_append]
          constructor
          · exact .inr
          · rintro (htext | htext)
            · exact List.mem_flatMap.mpr ⟨entry, h, htext⟩
            · exact htext
      | cut head left right entries =>
          simp only [List.flatMap_cons, ruleTexts_append, List.append_assoc]
  | refl entries => rfl
  | symm _ _ _ ih => exact ih.symm
  | trans _ _ _ _ _ ih ih' => exact ih.trans ih'

end Entry

namespace Document

variable {g base : Grammar} {document : Document}

/-! ### Errors -/

/-- One error for each alternative that is refused over the alphabets when its rule is added alone,
with the number of its entry. -/
def refusals (base : Grammar) (document : Document) : List (Nat × Error) :=
  (document.entries.zipIdx 1).flatMap fun (entry, number) =>
    entry.alternatives.filterMap fun alternative =>
      match base.addRule (entry.head ++ String.singleton arrow ++ alternative) with
      | .ok _ => none
      | .error error => some (number, error)

/-- Some alternative of an entry for the head spells the body. -/
def Lists (base : Grammar) (document : Document) (rule : Rule) : Prop :=
  ∃ entry ∈ document.entries, ∃ alternative ∈ entry.alternatives,
    String.ofList (Text.trim entry.head.toList) = rule.head ∧
      base.parseBody (String.ofList (Text.trim alternative.toList)) = .ok rule.body

theorem toGrammar_of_header_error {error : Error} (h : document.header = .error error) :
    document.toGrammar = .error [(0, error)] := by
  rw [toGrammar, h]

theorem filterMap_refusal?_numberedRules (base : Grammar) (document : Document) :
    document.numberedRules.filterMap (refusal? base) = document.refusals base := by
  rw [numberedRules, refusals, List.filterMap_flatMap]
  refine List.flatMap_congr fun numbered _ => ?_
  rw [List.filterMap_map, Entry.ruleTexts_eq, List.filterMap_map]
  rfl

theorem refusals_eq_nil_iff : document.refusals base = [] ↔
    ∀ text ∈ document.entries.flatMap Entry.ruleTexts, ∃ rule, base.parseRule text = .ok rule := by
  rw [← filterMap_refusal?_numberedRules, List.filterMap_eq_nil_iff, ← map_snd_numberedRules,
    List.forall_mem_map]
  exact forall₂_congr fun _ _ => refusal?_eq_none_iff

/-- Over accepted alphabets a document has all errors of its alternatives, or all their rules. -/
theorem toGrammar_of_header (h : document.header = .ok base) : document.toGrammar =
    if document.refusals base = [] then
      .ok (addRules document.numberedRules base).1
    else .error (document.refusals base) := by
  have hrules := addRules_eq document.numberedRules base
  rw [filterMap_refusal?_numberedRules] at hrules
  simp only [toGrammar, h, hrules]
  cases document.refusals base <;> rfl

/-! ### Rules -/

/-- The rule that a text of the document states is listed there. -/
theorem lists_of_parseRule {rule : Rule} {text : String}
    (htext : text ∈ document.entries.flatMap Entry.ruleTexts)
    (h : base.parseRule text = .ok rule) : document.Lists base rule := by
  obtain ⟨entry, hentry, htext⟩ := List.mem_flatMap.mp htext
  rw [Entry.ruleTexts_eq] at htext
  obtain ⟨alternative, halternative, rfl⟩ := List.mem_map.mp htext
  obtain ⟨-, body, hsplit, hbody⟩ := parseRule_eq_ok_iff.mp h
  obtain ⟨hhead, rfl⟩ := eq_of_splitRule hsplit
  exact ⟨entry, hentry, alternative, halternative, hhead.symm, hbody⟩

/-- Where nothing is refused, a listed rule is stated by a text of the document. -/
theorem exists_parseRule_of_lists (hrefusals : document.refusals base = []) {rule : Rule}
    (h : document.Lists base rule) :
    ∃ text ∈ document.entries.flatMap Entry.ruleTexts, base.parseRule text = .ok rule := by
  obtain ⟨entry, hentry, alternative, halternative, hhead, hbody⟩ := h
  have htext : entry.head ++ String.singleton arrow ++ alternative ∈
      document.entries.flatMap Entry.ruleTexts := by
    refine List.mem_flatMap.mpr ⟨entry, hentry, ?_⟩
    rw [Entry.ruleTexts_eq]
    exact List.mem_map_of_mem halternative
  -- the text states some rule, so it is cut where the head ends, and the head is declared
  obtain ⟨other, hother⟩ := refusals_eq_nil_iff.mp hrefusals _ htext
  obtain ⟨hdeclared, body, hsplit, -⟩ := parseRule_eq_ok_iff.mp hother
  obtain ⟨hother, rfl⟩ := eq_of_splitRule hsplit
  rw [hother.trans hhead] at hdeclared hsplit
  exact ⟨_, htext, parseRule_eq_ok_iff.mpr ⟨hdeclared, _, hsplit, hbody⟩⟩

/-- A document holds a grammar when none of its alternatives is refused; the rules are those that
its texts state. -/
theorem toGrammar_eq_ok_iff_texts : document.toGrammar = .ok g ↔
    ∃ base, document.header = .ok base ∧
      (∀ text ∈ document.entries.flatMap Entry.ruleTexts, ∃ rule, base.parseRule text = .ok rule) ∧
      g = { base with rules := g.rules } ∧ ∀ rule, rule ∈ g.rules ↔
        ∃ text ∈ document.entries.flatMap Entry.ruleTexts, base.parseRule text = .ok rule := by
  cases hheader : document.header with
  | error error => simp [toGrammar_of_header_error hheader]
  | ok base =>
      have hrules (rule : Rule) : rule ∈ (addRules document.numberedRules base).1.rules ↔
          ∃ text ∈ document.entries.flatMap Entry.ruleTexts, base.parseRule text = .ok rule := by
        rw [mem_addRules, rules_of_header hheader, map_snd_numberedRules]
        simp
      have hadded : (addRules document.numberedRules base).1 =
          { base with rules := (addRules document.numberedRules base).1.rules } := by
        rw [addRules_eq]
      rw [toGrammar_of_header hheader]
      constructor
      · intro h
        split at h
        · rename_i hrefusals
          obtain rfl := Except.ok.inj h
          exact ⟨base, rfl, refusals_eq_nil_iff.mp hrefusals, hadded, hrules⟩
        · simp at h
      · rintro ⟨_, hbase, htexts, hg, hmem⟩
        obtain rfl := Except.ok.inj hbase
        have heq : (addRules document.numberedRules base).1.rules = g.rules :=
          Std.ExtTreeSet.ext_mem fun rule => (hrules rule).trans (hmem rule).symm
        rw [if_pos (refusals_eq_nil_iff.mpr htexts), hadded, heq, ← hg]

/-- Only the rule texts of the entries matter, not their order and number. -/
theorem toGrammar_eq_ok_iff_of_mem_iff {entries : List Entry}
    (h : ∀ text, text ∈ entries.flatMap Entry.ruleTexts ↔
      text ∈ document.entries.flatMap Entry.ruleTexts) :
    { document with entries }.toGrammar = .ok g ↔ document.toGrammar = .ok g := by
  simp only [toGrammar_eq_ok_iff_texts, h]
  rfl

/-- A document with a refused alphabet or goal has this one error, with number 0. Otherwise it has
one error for each alternative that is refused over its alphabets alone, in the order of the
document and with the number of the entry; and without such errors it holds exactly the rules that
it lists. Hence entries may be listed in another order, repeated, cut at a bar and joined. Which
alphabets and goals are taken says `header_eq_ok_iff`. -/
theorem toGrammar_reports (document : Document) :
    (∀ error, document.header = .error error → document.toGrammar = .error [(0, error)]) ∧
    (∀ base, document.header = .ok base →
      (document.refusals base ≠ [] → document.toGrammar = .error (document.refusals base)) ∧
      (document.refusals base = [] → ∃ rules, document.toGrammar = .ok { base with rules } ∧
        ∀ rule, rule ∈ rules ↔ document.Lists base rule)) ∧
    ∀ entries, EqvGen Entry.Relists document.entries entries → ∀ g,
      { document with entries }.toGrammar = .ok g ↔ document.toGrammar = .ok g := by
  refine ⟨fun error => toGrammar_of_header_error, fun base hheader => ⟨?_, ?_⟩,
    fun entries hentries g => ?_⟩
  · intro hrefusals
    rw [toGrammar_of_header hheader, if_neg hrefusals]
  · intro hrefusals
    have hread := toGrammar_of_header hheader
    rw [if_pos hrefusals] at hread
    obtain ⟨_, hbase, -, hadded, hmem⟩ := toGrammar_eq_ok_iff_texts.mp hread
    obtain rfl := Except.ok.inj (hheader.symm.trans hbase)
    refine ⟨_, hread.trans (congrArg Except.ok hadded), fun rule => (hmem rule).trans ⟨?_, ?_⟩⟩
    · rintro ⟨text, htext, hrule⟩
      exact lists_of_parseRule htext hrule
    · exact exists_parseRule_of_lists hrefusals
  · exact toGrammar_eq_ok_iff_of_mem_iff fun text =>
      (Entry.mem_flatMap_ruleTexts_iff hentries text).symm

-- the errors are numbered by entries and not by alternatives
example :
    (match toGrammar
        ⟨"ab", "S,A", "S", [⟨"S", "aA|<lambda>"⟩, ⟨"A", "c|b"⟩, ⟨"A", "a<A"⟩]⟩ with
      | .ok _ => []
      | .error errors => errors) =
    [(2, .malformedRule "A→c"), (3, .malformedLexeme .unterminated)] := by decide +kernel

end Document

end FormalLanguages.Grammar
