import FormalLanguages.Grammar.Document
import FormalLanguages.Proofs.FreshNames
import FormalLanguages.Proofs.History

/-!
Well-formed drafts. The grammar of a document is what calls on the empty grammar lead to, and every
call keeps the alphabets legible, the rules closed and the rows filled; so every draft that arises
from documents and calls is well formed.
-/

namespace FormalLanguages

namespace RuleTable

variable {rules : RuleTable}

theorem mem_rows_iff {row : String × List Body} :
    row ∈ rules.rows ↔ (∃ body, ⟨row.1, body⟩ ∈ rules) ∧ rules.bodies row.1 = row.2 := by
  obtain ⟨head, bodies⟩ := row
  simp only [rows, List.mem_map, List.mem_eraseDups, Std.ExtTreeSet.mem_toList, Prod.mk.injEq]
  constructor
  · rintro ⟨_, ⟨rule, hrule, rfl⟩, rfl, rfl⟩
    exact ⟨⟨rule.body, hrule⟩, rfl⟩
  · rintro ⟨⟨body, hrule⟩, rfl⟩
    exact ⟨head, ⟨⟨head, body⟩, hrule, rfl⟩, rfl, rfl⟩

theorem mem_row_iff {row : String × List Body} (h : row ∈ rules.rows) {body : Body} :
    body ∈ row.2 ↔ ⟨row.1, body⟩ ∈ rules := by
  rw [← (mem_rows_iff.mp h).2, mem_bodies]

theorem ne_nil_of_mem_rows {row : String × List Body} (h : row ∈ rules.rows) : row.2 ≠ [] := by
  obtain ⟨⟨body, hrule⟩, -⟩ := mem_rows_iff.mp h
  exact List.ne_nil_of_mem ((mem_row_iff h).mpr hrule)

end RuleTable

namespace Grammar

variable {g g' : Grammar} {d : Draft}

/-! ### Calls -/

theorem Legible.setGoal (hg : g.Legible) {name : String} (h : g.setGoal name = .ok g') :
    g'.Legible := by
  unfold Grammar.setGoal at h
  split at h
  · obtain rfl := Except.ok.inj h
    exact hg.of_alphabets rfl rfl
  · exact absurd h (by simp)

theorem Legible.addRule (hg : g.Legible) {text : String} (h : g.addRule text = .ok g') :
    g'.Legible := by
  obtain ⟨rule, -, h⟩ := bind_eq_ok.mp h
  obtain rfl := Except.ok.inj h
  exact hg.of_alphabets rfl rfl

theorem Legible.toCanonical (hg : g.Legible) (hclosed : g.Closed)
    (h : g.toCanonical = .ok g') : g'.Legible := by
  obtain ⟨run, goal, root, -, rfl, hof⟩ := toCanonical_eq_ok h
  have hgoal := hclosed.goal goal hof.goal_eq
  exact hof.legible_result hg (hg.name goal hgoal).ne_empty

theorem Legible.apply (hg : g.Legible) (hclosed : g.Closed) {operation : Operation}
    (h : operation.apply g = .ok g') : g'.Legible := by
  cases operation with
  | setTerminals text => exact hg.setTerminals h
  | setNonTerminals text => exact hg.setNonTerminals h
  | setGoal name => exact hg.setGoal h
  | addRule text => exact hg.addRule h
  | removeRule rule =>
      obtain rfl := Except.ok.inj h
      exact hg.of_alphabets rfl rfl
  | toCanonical => exact hg.toCanonical hclosed h
  | toChomsky =>
      obtain rfl := Except.ok.inj h
      exact hg.toChomsky hclosed

theorem Reachable.legible (hg : g.Reachable) : g.Legible := by
  induction hg with
  | empty => exact legible_empty
  | perform hg operation ih =>
      rcases operation.perform_cases _ with hok | hrefused
      · exact ih.apply hg.closed hok
      · rwa [hrefused]

/-! ### Documents -/

theorem Reachable.apply (hg : g.Reachable) (operation : Operation)
    (h : operation.apply g = .ok g') : g'.Reachable := by
  have hperform := hg.perform operation
  rwa [operation.perform_eq h] at hperform

theorem Document.reachable_header {document : Document} (h : document.header = .ok g) :
    g.Reachable := by
  obtain ⟨lettered, named, hterminals, hnames, hgoal⟩ := header_eq_ok_iff.mp h
  have hreachable : lettered.Reachable := Reachable.empty.apply (.setTerminals _) hterminals
  have hreachable : named.Reachable := hreachable.apply (.setNonTerminals _) hnames
  split at hgoal
  · rwa [← hgoal]
  · exact hreachable.apply (.setGoal _) hgoal

theorem Document.reachable_addRules (rules : List (Nat × String)) (hg : g.Reachable) :
    (addRules rules g).1.Reachable := by
  induction rules generalizing g with
  | nil => exact hg
  | cons rule rules ih =>
      obtain ⟨number, text⟩ := rule
      simp only [addRules]
      split
      · rename_i hok
        exact ih (hg.apply (.addRule text) hok)
      · exact ih hg

theorem Document.toGrammar_eq_ok_iff {document : Document} : document.toGrammar = .ok g ↔
    ∃ header, document.header = .ok header ∧
      addRules document.numberedRules header = (g, []) := by
  unfold toGrammar
  cases hheader : document.header with
  | error error => simp
  | ok header =>
      rcases hrules : addRules document.numberedRules header with ⟨result, errors⟩
      cases errors with
      | nil => simp [hrules]
      | cons error errors => simp [hrules]

theorem Document.reachable_toGrammar {document : Document} (h : document.toGrammar = .ok g) :
    g.Reachable := by
  obtain ⟨header, hheader, hrules⟩ := toGrammar_eq_ok_iff.mp h
  have hreachable := reachable_addRules document.numberedRules (reachable_header hheader)
  rwa [hrules] at hreachable

/-! ### All drafts -/

namespace Draft

/-- The draft is new, or stems from a document or a call on such a draft, taken or refused. -/
inductive Arises : Draft → Prop where
  | new : Arises {}
  | read {document : Document} {d : Draft} (h : document.toDraft = .ok d) : Arises d
  | edit {d : Draft} (hd : Arises d) (operation : Operation) : Arises (operation.edit.on d).2

theorem Arises.tidy (hd : d.Arises) : d.book.Tidy := by
  induction hd with
  | new => exact RuleBook.tidy_empty
  | read h => exact Document.tidy_of_toDraft h
  | edit _ operation ih => exact operation.edit_refines.tidy ih

/-- Documents lead to no further grammars. -/
theorem Arises.reachable (hd : d.Arises) : d.grammar.Reachable := by
  induction hd with
  | new =>
      rw [Document.grammar_new]
      exact .empty
  | read h => exact Document.reachable_toGrammar (Document.toGrammar_of_toDraft h)
  | edit _ operation ih =>
      rw [operation.grammar_edit]
      exact ih.perform operation

/-- A draft without empty rows is written as its grammar says. -/
theorem ofGrammar_grammar (h : d.book.Tidy) : ofGrammar d.grammar = d := by
  have hbook : RuleBook.ofRules d.book.rules = d.book :=
    (RuleBook.tidy_ofRules _).eq_of_rules_eq h (RuleBook.rules_ofRules _)
  rw [ofGrammar, grammar, hbook]

/-- Every reachable grammar is that of a draft. -/
theorem arises_ofGrammar (hg : g.Reachable) : (ofGrammar g).Arises := by
  induction hg with
  | empty =>
      rw [← Document.grammar_new, ofGrammar_grammar RuleBook.tidy_empty]
      exact .new
  | perform _ operation ih =>
      have harises := ih.edit operation
      rw [Operation.perform, ofGrammar_grammar harises.tidy]
      exact harises

/-- Symbols are legible, the goal is declared, and every row has a declared head and at least one
body, with declared symbols only. -/
structure WellFormed (d : Draft) : Prop where
  letter : ∀ c ∈ d.terminals, isReserved c = false
  name : ∀ name ∈ d.nonTerminals, IsName name
  apart : ∀ c ∈ d.terminals, String.singleton c ∉ d.nonTerminals
  goal : ∀ name, d.goal = some name → name ∈ d.nonTerminals
  row : ∀ head bodies, d.book[head]? = some bodies → head ∈ d.nonTerminals ∧ bodies ≠ ∅ ∧
    ∀ body ∈ bodies, ∀ symbol ∈ body, d.alphabets.Declares symbol

theorem WellFormed.of_legible (hd : d.grammar.Legible) (hclosed : d.grammar.Closed)
    (htidy : d.book.Tidy) : d.WellFormed where
  letter := hd.letter
  name := hd.name
  apart := hd.apart
  goal := hclosed.goal
  row head bodies hrow := by
    have hrule {body : Body} (hbody : body ∈ bodies) : ⟨head, body⟩ ∈ d.grammar.rules :=
      RuleBook.mem_rules.mpr (RuleBook.mem_bodies_iff.mpr ⟨bodies, hrow, hbody⟩)
    refine ⟨headsDeclared_of_closed hclosed htidy head ?_, ?_, ?_⟩
    · rw [Std.ExtTreeMap.mem_iff_isSome_getElem?, hrow]
      rfl
    · rintro rfl
      exact htidy head hrow
    · exact fun body hbody => hclosed.body _ (hrule hbody)

/-- Whatever calls and documents lead to is well formed. -/
theorem wellFormed_of_arises (hd : d.Arises) : d.WellFormed :=
  .of_legible hd.reachable.legible hd.reachable.closed hd.tidy

/-- The goal derives the empty chain and recurs beside terminals that separate names. -/
def separatorLetters : Document where
  terminals := "a,;"
  nonTerminals := "S; A"
  goal := "S"
  entries := [⟨"S", "a,S; |<lambda>"⟩, ⟨"A", "S"⟩, ⟨"S", "aAa"⟩]

/-- What some calls make of a draft. -/
def afterCalls (operations : List Operation) (d : Draft) : Draft :=
  operations.foldl (fun d operation => (operation.edit.on d).2) d

theorem Arises.afterCalls (hd : d.Arises) (operations : List Operation) :
    (d.afterCalls operations).Arises := by
  induction operations generalizing d with
  | nil => exact hd
  | cons operation operations ih => exact ih (hd.edit operation)

/-- A rule text is refused, `A` loses its last body, and both forms are made. -/
def separatorCalls : List Operation :=
  [.addRule "A→", .removeRule ⟨"A", [.nonTerminal "S"]⟩, .toCanonical, .toChomsky]

theorem wellFormed_separatorLetters : ∃ d, separatorLetters.toDraft = .ok d ∧
    (∃ error, (addRule "A→").on d = (.error error, d)) ∧
    (d.afterCalls separatorCalls).Arises ∧ (d.afterCalls separatorCalls).WellFormed ∧
      "A" ∉ (d.afterCalls separatorCalls).book ∧ "S'" ∈ (d.afterCalls separatorCalls).book := by
  have h : ∃ d ∈ separatorLetters.toDraft.toOption,
      ((addRule "A→").on d).1.toOption = none ∧ "A" ∉ (d.afterCalls separatorCalls).book ∧
        "S'" ∈ (d.afterCalls separatorCalls).book := by
    decide +kernel
  obtain ⟨d, hd, hnone, hgone, hfresh⟩ := h
  have hread : separatorLetters.toDraft = .ok d := eq_ok_of_toOption hd
  have harises := (Arises.read hread).afterCalls separatorCalls
  have hrefused : ∃ error, (addRule "A→").on d = (.error error, d) := by
    rcases (addRule_refines "A→").cases d with ⟨_, _, _, -, hon, -⟩ | ⟨error, -, hon⟩
    · simp [hon, Except.toOption] at hnone
    · exact ⟨error, hon⟩
  exact ⟨d, hread, hrefused, harises, wellFormed_of_arises harises, hgone, hfresh⟩

end Draft

end Grammar

end FormalLanguages
