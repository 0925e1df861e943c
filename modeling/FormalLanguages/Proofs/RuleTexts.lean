import FormalLanguages.Grammar.RuleText
import FormalLanguages.Proofs.Alphabets
import FormalLanguages.Proofs.Lexemes

/-!
Rules and their texts. Over legible alphabets every declared symbol has a lexeme of its own, and a
rule over declared symbols is read back from the text that it is written as.
-/

namespace FormalLanguages

/-- The lexeme that refers to a symbol: a name of one character is bare. -/
def Symbol.lexeme : Symbol → Lexeme
  | .terminal c => .bare c
  | .nonTerminal name =>
    match name.toList with
    | [c] => .bare c
    | _ => .wrapped name

theorem Symbol.lexeme_nonTerminal (name : String) :
    (∃ c, name = String.singleton c ∧ (nonTerminal name).lexeme = .bare c) ∨
      name.length ≠ 1 ∧ (nonTerminal name).lexeme = .wrapped name := by
  cases hletters : name.toList with
  | nil =>
      refine .inr ⟨?_, by simp [lexeme, hletters]⟩
      simp [← String.length_toList, hletters]
  | cons c letters =>
      cases letters with
      | nil =>
          refine .inl ⟨c, ?_, by simp [lexeme, hletters]⟩
          rw [← String.toList_inj, hletters, String.toList_singleton]
      | cons d letters =>
          refine .inr ⟨?_, by simp [lexeme, hletters]⟩
          simp [← String.length_toList, hletters]

theorem Symbol.eq_of_lexeme_eq_wrapped {symbol : Symbol} {name : String}
    (h : symbol.lexeme = .wrapped name) : symbol = .nonTerminal name := by
  cases symbol with
  | terminal c => simp [lexeme] at h
  | nonTerminal other =>
      rcases lexeme_nonTerminal other with ⟨c, -, hlexeme⟩ | ⟨-, hlexeme⟩
      · simp [hlexeme] at h
      · simpa [hlexeme] using h

theorem Symbol.toList_spelling (symbol : Symbol) :
    symbol.spelling.toList = symbol.lexeme.spelling := by
  cases symbol with
  | terminal c => simp [spelling, lexeme]
  | nonTerminal name =>
      rcases lexeme_nonTerminal name with ⟨c, rfl, hlexeme⟩ | ⟨hlength, hlexeme⟩
      · simp [spelling, reference, hlexeme]
      · simp [spelling, reference, hlexeme, hlength, wrap]

theorem Body.toList_text {body : Body} (h : body ≠ []) :
    body.text.toList = (body.map Symbol.lexeme).flatMap Lexeme.spelling := by
  have hbody : body.isEmpty = false := by simpa using h
  simp only [text, hbody, Bool.false_eq_true, if_false, String.toList_join, List.flatMap_map]
  congr 1
  funext symbol
  exact symbol.toList_spelling

namespace Grammar

variable {g : Grammar}

/-! ### What is read -/

theorem declares_of_classify {lexeme : Lexeme} {symbol : Symbol}
    (h : g.classify lexeme = some symbol) : g.Declares symbol := by
  unfold classify at h
  split at h
  · split at h
    · obtain rfl := Option.some.inj h
      assumption
    · exact absurd h (by simp)
  · split at h
    · obtain rfl := Option.some.inj h
      assumption
    · split at h
      · obtain rfl := Option.some.inj h
        assumption
      · exact absurd h (by simp)

theorem lexeme_of_classify {lexeme : Lexeme} {name : String} (hname : name.length ≠ 1)
    (h : g.classify lexeme = some (.nonTerminal name)) : lexeme = .wrapped name := by
  unfold classify at h
  split at h
  · split at h
    · simpa using h
    · simp at h
  · rename_i c
    split at h
    · simp at h
    · split at h
      · obtain rfl : String.singleton c = name := by simpa using h
        simp at hname
      · simp at h

/-- Every symbol of a body is what some lexeme refers to. -/
theorem exists_classify_of_mem {lexemes : List Lexeme} {body : Body}
    (h : lexemes.mapM g.classify = some body) {symbol : Symbol} (hsymbol : symbol ∈ body) :
    ∃ lexeme ∈ lexemes, g.classify lexeme = some symbol := by
  rw [mapM_eq_some_iff] at h
  induction h with
  | nil => exact absurd hsymbol List.not_mem_nil
  | cons hfirst _ ih =>
      rcases List.mem_cons.mp hsymbol with rfl | hsymbol
      · exact ⟨_, List.mem_cons_self, hfirst⟩
      · obtain ⟨other, hother, hclassify⟩ := ih hsymbol
        exact ⟨other, List.mem_cons_of_mem _ hother, hclassify⟩

/-- A body is a lone `λ` or a sequence of lexemes that refer to its symbols. -/
theorem bodyOfLexemes_eq_some_iff {lexemes : List Lexeme} {body : Body} :
    g.bodyOfLexemes lexemes = some body ↔ lexemes = [.bare lambda] ∧ body = [] ∨
      lexemes ≠ [] ∧ (∀ lexeme ∈ lexemes, lexeme.isLambda = false) ∧
        lexemes.mapM g.classify = some body := by
  unfold bodyOfLexemes
  split
  · rename_i hany
    obtain ⟨lexeme, hlexeme, hlambda⟩ := List.any_eq_true.mp hany
    have hnot : ¬ ∀ other ∈ lexemes, other.isLambda = false := by
      intro h
      simp [h lexeme hlexeme] at hlambda
    have hlone : lexemes.length = 1 ↔ lexemes = [.bare lambda] := by
      constructor
      · intro hlength
        obtain ⟨other, rfl⟩ := List.length_eq_one_iff.mp hlength
        obtain rfl := List.mem_singleton.mp hlexeme
        rw [Lexeme.isLambda_iff.mp hlambda]
      · rintro rfl
        rfl
    constructor
    · intro h
      split at h
      · rename_i hlength
        exact .inl ⟨hlone.mp hlength, (Option.some.inj h).symm⟩
      · simp at h
    · rintro (⟨hlexemes, rfl⟩ | ⟨-, hfree, -⟩)
      · rw [if_pos (hlone.mpr hlexemes)]
      · exact absurd hfree hnot
  · rename_i hlambda
    have hlambda : ∀ lexeme ∈ lexemes, lexeme.isLambda = false := by simpa using hlambda
    have hne : lexemes ≠ [.bare lambda] := by
      rintro rfl
      exact absurd (hlambda _ (List.mem_singleton_self _)) (by decide)
    cases lexemes with
    | nil => simp
    | cons lexeme lexemes =>
        simp only [hne, false_and, false_or]
        exact ⟨fun h => ⟨List.cons_ne_nil _ _, hlambda, h⟩, fun h => h.2.2⟩

theorem parseBody_eq_ok_iff {text : String} {body : Body} : g.parseBody text = .ok body ↔
    ∃ lexemes, Lexeme.tokenize text = .ok lexemes ∧ g.bodyOfLexemes lexemes = some body := by
  unfold parseBody
  split
  · rename_i htokens
    simp [htokens]
  · rename_i lexemes htokens
    cases hbody : g.bodyOfLexemes lexemes with
    | none => simp [htokens, hbody]
    | some other => simp [htokens, hbody]

theorem declares_of_parseBody {text : String} {body : Body} (h : g.parseBody text = .ok body) :
    ∀ symbol ∈ body, g.Declares symbol := by
  intro symbol hsymbol
  obtain ⟨lexemes, -, hbody⟩ := parseBody_eq_ok_iff.mp h
  rcases bodyOfLexemes_eq_some_iff.mp hbody with ⟨-, rfl⟩ | ⟨-, -, hbody⟩
  · exact absurd hsymbol List.not_mem_nil
  · obtain ⟨lexeme, -, hclassify⟩ := exists_classify_of_mem hbody hsymbol
    exact declares_of_classify hclassify

/-- A name of more than one character in a body is wrapped in the text of the body. -/
theorem infix_of_parseBody {text name : String} {body : Body} (h : g.parseBody text = .ok body)
    (hname : name.length ≠ 1) (hmem : .nonTerminal name ∈ body) :
    (Lexeme.wrapped name).spelling <:+: text.toList := by
  obtain ⟨lexemes, htokens, hbody⟩ := parseBody_eq_ok_iff.mp h
  obtain ⟨rfl, -⟩ := Lexeme.tokenize_eq_ok_iff.mp htokens
  rcases bodyOfLexemes_eq_some_iff.mp hbody with ⟨-, rfl⟩ | ⟨-, -, hbody⟩
  · exact absurd hmem List.not_mem_nil
  · obtain ⟨lexeme, hlexeme, hclassify⟩ := exists_classify_of_mem hbody hmem
    rw [Lexeme.untokenize, String.toList_ofList, ← lexeme_of_classify hname hclassify]
    exact Lexeme.infix_flatMap_spelling hlexeme

/-- A text with an arrow is cut at the first one. -/
theorem splitRule_eq {text : String} {before after : List Char}
    (htext : text.toList = before ++ arrow :: after) (hbefore : arrow ∉ before) :
    splitRule text = if arrow ∈ after then none else
      some (String.ofList (Text.trim before), String.ofList (Text.trim after)) := by
  rw [splitRule, htext, Text.cut?_singleton hbefore]
  rfl

/-- A text with two sides of an arrow is cut there, as it would be refused with a further arrow. -/
theorem eq_of_splitRule {before after head body : String}
    (h : splitRule (before ++ String.singleton arrow ++ after) = some (head, body)) :
    head = String.ofList (Text.trim before.toList) ∧
      body = String.ofList (Text.trim after.toList) := by
  have htext : (before ++ String.singleton arrow ++ after).toList =
      before.toList ++ arrow :: after.toList := by simp
  by_cases hbefore : arrow ∈ before.toList
  · obtain ⟨first, rest, hfirst, hfree⟩ := List.eq_append_cons_of_mem hbefore
    rw [hfirst, List.append_assoc, List.cons_append] at htext
    rw [splitRule_eq htext hfree, if_pos (by simp)] at h
    exact absurd h (by simp)
  · rw [splitRule_eq htext hbefore] at h
    split at h
    · simp at h
    · obtain ⟨rfl, rfl⟩ := Prod.mk.inj (Option.some.inj h)
      exact ⟨rfl, rfl⟩

theorem parseRule_eq_ok_iff {text : String} {rule : Rule} : g.parseRule text = .ok rule ↔
    rule.head ∈ g.nonTerminals ∧
      ∃ body, splitRule text = some (rule.head, body) ∧ g.parseBody body = .ok rule.body := by
  obtain ⟨head, body⟩ := rule
  unfold parseRule
  cases hsplit : splitRule text with
  | none => simp
  | some parts =>
      obtain ⟨name, rest⟩ := parts
      simp only [Option.some.injEq, Prod.mk.injEq]
      by_cases hname : name ∈ g.nonTerminals
      · rw [if_pos hname]
        cases hbody : g.parseBody rest with
        | ok other =>
            constructor
            · intro h
              obtain ⟨rfl, rfl⟩ := Rule.mk.inj (Except.ok.inj h)
              exact ⟨hname, rest, ⟨rfl, rfl⟩, hbody⟩
            · rintro ⟨-, _, ⟨rfl, rfl⟩, h⟩
              rw [Except.ok.inj (hbody.symm.trans h)]
        | error error =>
            have hnot : ¬ ∃ text, (name = head ∧ rest = text) ∧ g.parseBody text = .ok body := by
              rintro ⟨_, ⟨-, rfl⟩, h⟩
              simp [hbody] at h
            simp only [hnot, and_false, iff_false]
            split <;> simp_all
      · rw [if_neg hname]
        constructor
        · simp
        · rintro ⟨hhead, _, ⟨rfl, -⟩, -⟩
          exact absurd hhead hname

/-- A rule text states a rule over the declared symbols. -/
theorem declares_of_parseRule {text : String} {rule : Rule} (h : g.parseRule text = .ok rule) :
    rule.head ∈ g.nonTerminals ∧ ∀ symbol ∈ rule.body, g.Declares symbol := by
  obtain ⟨hhead, body, -, hbody⟩ := parseRule_eq_ok_iff.mp h
  exact ⟨hhead, declares_of_parseBody hbody⟩

/-! ### Lexemes of declared symbols -/

theorem ne_of_not_reserved {c d : Char} (hc : isReserved c = false) (hd : isReserved d = true) :
    c ≠ d := by
  rintro rfl
  simp [hc] at hd

theorem isWritable_bare {c : Char} (hc : isReserved c = false) :
    (Lexeme.bare c).IsWritable ∧ (Lexeme.bare c).isLambda = false := by
  refine ⟨⟨ne_of_not_reserved hc (by decide), ne_of_not_reserved hc (by decide)⟩, ?_⟩
  simpa [Lexeme.isLambda] using ne_of_not_reserved hc (by decide)

theorem isWritable_wrapped {name : String} (h : IsName name) :
    (Lexeme.wrapped name).IsWritable := by
  refine ⟨h.ne_empty, fun hopen => ?_, fun hclose => ?_⟩
  · exact absurd (h.not_reserved _ hopen) (by decide)
  · exact absurd (h.not_reserved _ hclose) (by decide)

theorem Legible.lexeme_isWritable (hg : g.Legible) {symbol : Symbol} (h : g.Declares symbol) :
    symbol.lexeme.IsWritable ∧ symbol.lexeme.isLambda = false := by
  cases symbol with
  | terminal c => exact isWritable_bare (hg.letter c h)
  | nonTerminal name =>
      have hname := hg.name name h
      rcases Symbol.lexeme_nonTerminal name with ⟨c, rfl, hlexeme⟩ | ⟨-, hlexeme⟩
      · rw [hlexeme]
        exact isWritable_bare (hname.not_reserved c (by simp))
      · rw [hlexeme]
        exact ⟨isWritable_wrapped hname, rfl⟩

theorem Legible.classify_lexeme (hg : g.Legible) {symbol : Symbol} (h : g.Declares symbol) :
    g.classify symbol.lexeme = some symbol := by
  cases symbol with
  | terminal c => exact if_pos h
  | nonTerminal name =>
      have h : name ∈ g.nonTerminals := h
      rcases Symbol.lexeme_nonTerminal name with ⟨c, rfl, hlexeme⟩ | ⟨-, hlexeme⟩
      · have hc : c ∉ g.terminals := fun hc => hg.apart c hc h
        simp [hlexeme, classify, hc, h]
      · simp [hlexeme, classify, h]

theorem Legible.mapM_classify_lexeme (hg : g.Legible) {body : Body}
    (h : ∀ symbol ∈ body, g.Declares symbol) :
    (body.map Symbol.lexeme).mapM g.classify = some body := by
  rw [mapM_eq_some_iff, List.forall₂_map_right_iff, List.forall₂_same]
  exact fun symbol hsymbol => hg.classify_lexeme (h symbol hsymbol)

/-! ### What is written -/

theorem Legible.tokenize_text (hg : g.Legible) {body : Body} (hbody : body ≠ [])
    (h : ∀ symbol ∈ body, g.Declares symbol) :
    Lexeme.tokenize body.text = .ok (body.map Symbol.lexeme) := by
  refine Lexeme.tokenize_eq_ok_iff.mpr ⟨?_, ?_⟩
  · rw [Lexeme.untokenize, ← Body.toList_text hbody, String.ofList_toList]
  · simp only [List.forall_mem_map]
    exact fun symbol hsymbol => (hg.lexeme_isWritable (h symbol hsymbol)).1

/-- What looks like a wrapped name in the text of a body is a symbol of the body. -/
theorem Legible.mem_of_infix_text (hg : g.Legible) {body : Body} (hbody : body ≠ [])
    (h : ∀ symbol ∈ body, g.Declares symbol) {name : String} (hname : '>' ∉ name.toList)
    (hinside : (Lexeme.wrapped name).spelling <:+: body.text.toList) :
    .nonTerminal name ∈ body := by
  have hwritable : ∀ lexeme ∈ body.map Symbol.lexeme, lexeme.IsWritable :=
    (Lexeme.tokenize_eq_ok_iff.mp (hg.tokenize_text hbody h)).2
  rw [Body.toList_text hbody] at hinside
  have hmem := Lexeme.mem_of_infix_flatMap_spelling hwritable hname hinside
  obtain ⟨symbol, hsymbol, hlexeme⟩ := List.mem_map.mp hmem
  rwa [Symbol.eq_of_lexeme_eq_wrapped hlexeme] at hsymbol

/-- A body over declared symbols is read back from its text. -/
theorem Legible.parseBody_text (hg : g.Legible) {body : Body}
    (h : ∀ symbol ∈ body, g.Declares symbol) : g.parseBody body.text = .ok body := by
  by_cases hbody : body = []
  · subst hbody
    rfl
  · refine parseBody_eq_ok_iff.mpr ⟨_, hg.tokenize_text hbody h, ?_⟩
    refine bodyOfLexemes_eq_some_iff.mpr (.inr ⟨by simpa using hbody, ?_, ?_⟩)
    · simp only [List.forall_mem_map]
      exact fun symbol hsymbol => (hg.lexeme_isWritable (h symbol hsymbol)).2
    · exact hg.mapM_classify_lexeme h

/-- Texts of bodies hold no sign that stands between bodies or between a head and a body. -/
theorem Legible.of_mem_text (hg : g.Legible) {body : Body}
    (h : ∀ symbol ∈ body, g.Declares symbol) {c : Char} (hc : c ∈ body.text.toList) :
    Text.isBlank c = false ∧ c ≠ arrow ∧ c ≠ alternativeBar := by
  have hplain {d : Char} (hd : isReserved d = false) :
      Text.isBlank d = false ∧ d ≠ arrow ∧ d ≠ alternativeBar := by
    simp only [isReserved, Bool.or_eq_false_iff, beq_eq_false_iff_ne] at hd
    exact ⟨hd.2, hd.1.2, hd.1.1.2⟩
  by_cases hbody : body = []
  · subst hbody
    obtain rfl : c = lambda := by simpa [Body.text] using hc
    decide
  · rw [Body.toList_text hbody, List.mem_flatMap] at hc
    obtain ⟨lexeme, hlexeme, hc⟩ := hc
    obtain ⟨symbol, hsymbol, rfl⟩ := List.mem_map.mp hlexeme
    have hdeclared := h symbol hsymbol
    cases symbol with
    | terminal d =>
        obtain rfl : c = d := by simpa [Symbol.lexeme] using hc
        exact hplain (hg.letter c hdeclared)
    | nonTerminal name =>
        have hname := hg.name name hdeclared
        rcases Symbol.lexeme_nonTerminal name with ⟨d, rfl, heq⟩ | ⟨-, heq⟩
        · obtain rfl : c = d := by simpa [heq] using hc
          exact hplain (hname.not_reserved c (by simp))
        · have hc : c = '<' ∨ c ∈ name.toList ∨ c = '>' := by simpa [heq] using hc
          rcases hc with rfl | hc | rfl
          · decide
          · exact hplain (hname.not_reserved c hc)
          · decide

theorem Legible.splitRule_text (hg : g.Legible) {rule : Rule} (hhead : rule.head ∈ g.nonTerminals)
    (hbody : ∀ symbol ∈ rule.body, g.Declares symbol) :
    splitRule rule.text = some (rule.head, rule.body.text) := by
  have hname := hg.name rule.head hhead
  have htext : rule.text.toList = rule.head.toList ++ arrow :: rule.body.text.toList := by
    simp [Rule.text]
  have hfree : arrow ∉ rule.head.toList := by
    intro h
    exact absurd (hname.not_reserved arrow h) (by decide)
  have harrow : arrow ∉ rule.body.text.toList := fun h => (hg.of_mem_text hbody h).2.1 rfl
  have htrim : Text.trim rule.body.text.toList = rule.body.text.toList :=
    Text.trim_eq_self fun c hc => (hg.of_mem_text hbody hc).1
  rw [splitRule_eq htext hfree, if_neg harrow, hname.trim_eq_self, htrim, String.ofList_toList,
    String.ofList_toList]

/-- A rule over declared symbols is read back from its text. -/
theorem Legible.parseRule_text (hg : g.Legible) {rule : Rule} (hhead : rule.head ∈ g.nonTerminals)
    (hbody : ∀ symbol ∈ rule.body, g.Declares symbol) : g.parseRule rule.text = .ok rule :=
  parseRule_eq_ok_iff.mpr
    ⟨hhead, _, hg.splitRule_text hhead hbody, hg.parseBody_text hbody⟩

theorem Legible.addRule_text (hg : g.Legible) {rule : Rule} (hhead : rule.head ∈ g.nonTerminals)
    (hbody : ∀ symbol ∈ rule.body, g.Declares symbol) :
    g.addRule rule.text = .ok { g with rules := g.rules.insert rule } := by
  rw [addRule, hg.parseRule_text hhead hbody]
  rfl

end Grammar

end FormalLanguages
