import FormalLanguages.Proofs.WellFormed
import Mathlib.Data.List.Infix
import Mathlib.Data.List.Perm.Basic

/-!
The language of rule texts. Over the alphabets of a reachable grammar a body is read from exactly
the texts that spell its symbols one after the other, and a rule from exactly the texts that are cut
at an arrow into a declared head and such a body. So the listing of a grammar can be read back line
by line in any order.
-/

namespace FormalLanguages

/-- A terminal is spelled as itself, a name between wrappers or, when it is one character, bare. -/
inductive Symbol.IsSpelledBy : Symbol → List Char → Prop where
  | terminal (c : Char) : IsSpelledBy (.terminal c) [c]
  | bare (c : Char) : IsSpelledBy (.nonTerminal (String.singleton c)) [c]
  | wrapped (name : String) : IsSpelledBy (.nonTerminal name) ('<' :: name.toList ++ ['>'])

/-- The text is a sequence of bare characters and wrapped names; otherwise its wrappers are
broken. -/
def Lexeme.IsSequence (text : String) : Prop :=
  ∃ lexemes, untokenize lexemes = text ∧ ∀ lexeme ∈ lexemes, lexeme.IsWritable

theorem Lexeme.isSequence_iff {text : String} :
    IsSequence text ↔ ∃ lexemes, tokenize text = .ok lexemes := by
  simp only [IsSequence, tokenize_eq_ok_iff]

namespace Grammar

/-- The text is a lone `λ` for the empty body, or spells the declared symbols of the body one after
the other. -/
def Writes (g : Grammar) (body : Body) (text : String) : Prop :=
  text = String.singleton lambda ∧ body = [] ∨
    body ≠ [] ∧ (∀ symbol ∈ body, g.Declares symbol) ∧
      ∃ parts, List.Forall₂ Symbol.IsSpelledBy body parts ∧ String.ofList parts.flatten = text

/-- A text is cut at its only arrow, or at the first ASCII arrow if it has no other one. -/
def IsRuleCut (text left right : List Char) : Prop :=
  text.count arrow = 1 ∧ text = left ++ arrow :: right ∨
    arrow ∉ text ∧ text = left ++ asciiArrow ++ right ∧
      ∀ left' right', text = left' ++ asciiArrow ++ right' → left.length ≤ left'.length

variable {g g' : Grammar} {text : String} {body : Body} {symbol : Symbol} {lexeme : Lexeme}

/-! ### Bodies -/

/-- A lexeme refers to the one declared symbol that it spells. -/
theorem Legible.classify_eq_some_iff (hg : g.Legible) :
    g.classify lexeme = some symbol ↔
      g.Declares symbol ∧ symbol.IsSpelledBy lexeme.spelling := by
  constructor
  · intro h
    refine ⟨declares_of_classify h, ?_⟩
    unfold classify at h
    split at h
    · split at h
      · obtain rfl := Option.some.inj h
        exact .wrapped _
      · simp at h
    · split at h
      · obtain rfl := Option.some.inj h
        exact .terminal _
      · split at h
        · obtain rfl := Option.some.inj h
          exact .bare _
        · simp at h
  · rintro ⟨hdeclared, hspelled⟩
    generalize hpart : lexeme.spelling = part at hspelled
    cases lexeme with
    | bare c =>
        cases hspelled with
        | terminal d =>
            obtain rfl : c = d := by simpa using hpart
            exact if_pos hdeclared
        | bare d =>
            obtain rfl : c = d := by simpa using hpart
            have hterminal : c ∉ g.terminals := fun hc => hg.apart c hc hdeclared
            rw [classify, if_neg hterminal]
            exact if_pos hdeclared
        | wrapped name => simp at hpart
    | wrapped name =>
        cases hspelled with
        | terminal d => simp at hpart
        | bare d => simp at hpart
        | wrapped other =>
            obtain rfl : name = other := String.toList_inj.mp (by simpa using hpart)
            exact if_pos hdeclared

/-- What spells a declared symbol is the spelling of a lexeme other than `λ`. -/
theorem Legible.exists_lexeme (hg : g.Legible) (h : g.Declares symbol) {part : List Char}
    (hspelled : symbol.IsSpelledBy part) :
    ∃ lexeme : Lexeme, lexeme.spelling = part ∧ lexeme.IsWritable ∧ lexeme.isLambda = false := by
  cases hspelled with
  | terminal c => exact ⟨.bare c, rfl, isWritable_bare (hg.letter c h)⟩
  | bare c => exact ⟨.bare c, rfl, isWritable_bare ((hg.name _ h).not_reserved c (by simp))⟩
  | wrapped name => exact ⟨.wrapped name, rfl, isWritable_wrapped (hg.name name h), rfl⟩

theorem Legible.exists_lexemes (hg : g.Legible) {parts : List (List Char)}
    (h : ∀ symbol ∈ body, g.Declares symbol)
    (hspelled : List.Forall₂ Symbol.IsSpelledBy body parts) :
    ∃ lexemes : List Lexeme, lexemes.map Lexeme.spelling = parts ∧
      (∀ lexeme ∈ lexemes, lexeme.IsWritable ∧ lexeme.isLambda = false) ∧
        lexemes.mapM g.classify = some body := by
  induction hspelled with
  | nil => exact ⟨[], rfl, by simp, rfl⟩
  | cons hsymbol _ ih =>
      obtain ⟨hdeclared, h⟩ := List.forall_mem_cons.mp h
      obtain ⟨lexeme, rfl, hlexeme⟩ := hg.exists_lexeme hdeclared hsymbol
      obtain ⟨lexemes, rfl, hlexemes, hclassify⟩ := ih h
      refine ⟨lexeme :: lexemes, rfl, List.forall_mem_cons.mpr ⟨hlexeme, hlexemes⟩, ?_⟩
      rw [mapM_eq_some_iff] at hclassify ⊢
      exact .cons (hg.classify_eq_some_iff.mpr ⟨hdeclared, hsymbol⟩) hclassify

theorem Legible.parseBody_eq_ok_iff (hg : g.Legible) :
    g.parseBody text = .ok body ↔ g.Writes body text := by
  rw [Grammar.parseBody_eq_ok_iff]
  constructor
  · rintro ⟨lexemes, htokens, hbody⟩
    obtain ⟨rfl, -⟩ := Lexeme.tokenize_eq_ok_iff.mp htokens
    rcases bodyOfLexemes_eq_some_iff.mp hbody with ⟨rfl, rfl⟩ | ⟨hne, -, hbody⟩
    · exact .inl ⟨by decide, rfl⟩
    · have hforall := mapM_eq_some_iff.mp hbody
      have hdeclared : ∀ symbol ∈ body, g.Declares symbol := fun symbol hsymbol =>
        have ⟨_, _, hclassify⟩ := exists_classify_of_mem hbody hsymbol
        declares_of_classify hclassify
      refine .inr ⟨?_, hdeclared, lexemes.map Lexeme.spelling, ?_, ?_⟩
      · rintro rfl
        exact hne (List.forall₂_nil_left_iff.mp hforall)
      · rw [List.forall₂_map_right_iff]
        exact hforall.imp fun _ _ h => (hg.classify_eq_some_iff.mp h).2
      · rw [Lexeme.untokenize, List.flatMap_def]
  · rintro (⟨rfl, rfl⟩ | ⟨hne, hdeclared, parts, hspelled, rfl⟩)
    · exact ⟨[.bare lambda], by decide, rfl⟩
    · obtain ⟨lexemes, rfl, hlexemes, hclassify⟩ := hg.exists_lexemes hdeclared hspelled
      refine ⟨lexemes, Lexeme.tokenize_eq_ok_iff.mpr ⟨?_, fun lexeme h => (hlexemes lexeme h).1⟩,
        bodyOfLexemes_eq_some_iff.mpr (.inr ⟨?_, fun lexeme h => (hlexemes lexeme h).2, hclassify⟩)⟩
      · rw [Lexeme.untokenize, List.flatMap_def]
      · rintro rfl
        exact hne (List.forall₂_nil_right_iff.mp (mapM_eq_some_iff.mp hclassify))

/-- A text with a broken wrapper is refused for it. -/
theorem exists_parseBody_eq_malformedLexeme (h : ¬ Lexeme.IsSequence text) :
    ∃ fault, g.parseBody text = .error (.malformedLexeme fault) := by
  cases htokens : Lexeme.tokenize text with
  | error fault => exact ⟨fault, by rw [parseBody, htokens]⟩
  | ok lexemes => exact absurd (Lexeme.isSequence_iff.mpr ⟨lexemes, htokens⟩) h

/-- Any other text is refused as a whole, if it is refused. -/
theorem parseBody_eq_malformedRule (h : Lexeme.IsSequence text)
    (hrefused : ∀ body, g.parseBody text ≠ .ok body) :
    g.parseBody text = .error (.malformedRule text) := by
  obtain ⟨lexemes, htokens⟩ := Lexeme.isSequence_iff.mp h
  cases hbody : g.bodyOfLexemes lexemes with
  | none => simp only [parseBody, htokens, hbody]
  | some body =>
      have hread := Grammar.parseBody_eq_ok_iff.mpr ⟨lexemes, htokens, hbody⟩
      exact absurd hread (hrefused body)

/-! ### Rules -/

theorem count_append_cons_eq_one_iff {c : Char} {left right : List Char} :
    (left ++ c :: right).count c = 1 ↔ c ∉ left ∧ c ∉ right := by
  rw [List.count_append, List.count_cons_self, ← List.count_eq_zero, ← List.count_eq_zero]
  omega

/-- The arrow counts first, and behind it there is no other one. -/
theorem isRuleCut_iff {text left right : List Char} : IsRuleCut text left right ↔
    (Text.cut? [arrow] text).or (Text.cut? asciiArrow text) = some (left, right) ∧
      arrow ∉ right := by
  by_cases harrow : arrow ∈ text
  · obtain ⟨before, after, rfl, hbefore⟩ := List.eq_append_cons_of_mem harrow
    rw [Text.cut?_singleton hbefore, Option.some_or]
    constructor
    · rintro (⟨hcount, heq⟩ | ⟨hnone, -⟩)
      · rw [heq, count_append_cons_eq_one_iff] at hcount
        obtain ⟨rfl, rfl⟩ := Text.eq_of_append_cons_eq hbefore hcount.1 heq
        exact ⟨rfl, hcount.2⟩
      · exact absurd harrow hnone
    · rintro ⟨heq, hright⟩
      obtain ⟨rfl, rfl⟩ := Prod.mk.inj (Option.some.inj heq)
      exact .inl ⟨count_append_cons_eq_one_iff.mpr ⟨hbefore, hright⟩, rfl⟩
  · have hnone : Text.cut? [arrow] text = none := by
      rw [Text.cut?_eq_none_iff (by simp), List.singleton_infix_iff]
      exact harrow
    rw [hnone, Option.none_or, Text.cut?_eq_some_iff (by decide)]
    constructor
    · rintro (⟨-, rfl⟩ | ⟨-, heq, hfirst⟩)
      · simp at harrow
      · refine ⟨⟨heq, hfirst⟩, fun hright => harrow ?_⟩
        rw [heq]
        exact List.mem_append_right _ hright
    · exact fun h => .inr ⟨harrow, h.1⟩

theorem splitRule_eq_some_iff {head rest : String} :
    splitRule text = some (head, rest) ↔ ∃ left right, IsRuleCut text.toList left right ∧
      String.ofList (Text.trim left) = head ∧ String.ofList (Text.trim right) = rest := by
  simp only [isRuleCut_iff]
  rw [splitRule, Option.bind_eq_bind, Option.bind_eq_some_iff]
  constructor
  · rintro ⟨⟨left, right⟩, hcut, h⟩
    dsimp only at h
    split at h
    · simp at h
    · rename_i hright
      obtain ⟨rfl, rfl⟩ := Prod.mk.inj (Option.some.inj h)
      exact ⟨left, right, ⟨hcut, hright⟩, rfl, rfl⟩
  · rintro ⟨left, right, ⟨hcut, hright⟩, rfl, rfl⟩
    exact ⟨(left, right), hcut, if_neg hright⟩

/-- A text states a rule when it is cut into a declared head and the text of a body. -/
theorem parseRule_eq_ok_iff_isRuleCut {rule : Rule} : g.parseRule text = .ok rule ↔
    ∃ left right, IsRuleCut text.toList left right ∧ String.ofList (Text.trim left) = rule.head ∧
      rule.head ∈ g.nonTerminals ∧
      g.parseBody (String.ofList (Text.trim right)) = .ok rule.body := by
  rw [parseRule_eq_ok_iff]
  constructor
  · rintro ⟨hhead, rest, hsplit, hbody⟩
    obtain ⟨left, right, hcut, hleft, rfl⟩ := splitRule_eq_some_iff.mp hsplit
    exact ⟨left, right, hcut, hleft, hhead, hbody⟩
  · rintro ⟨left, right, hcut, hleft, hhead, hbody⟩
    exact ⟨hhead, _, splitRule_eq_some_iff.mpr ⟨left, right, hcut, hleft, rfl⟩, hbody⟩

namespace Draft

variable {d d' : Draft}

/-- The second draft has a rule besides those of the first one, in the row of its head, and differs
from the first one in nothing else. -/
structure HasBesides (d : Draft) (rule : Rule) (d' : Draft) : Prop where
  terminals : d'.terminals = d.terminals
  nonTerminals : d'.nonTerminals = d.nonTerminals
  goal : d'.goal = d.goal
  row : d'.book[rule.head]? = some ((d.book.bodies rule.head).insert rule.body)
  other : ∀ head, head ≠ rule.head → d'.book[head]? = d.book[head]?

theorem hasBesides_iff {rule : Rule} :
    d.HasBesides rule d' ↔ { d with book := d.book.add rule } = d' := by
  have hadd (head : String) : (d.book.add rule)[head]? =
      if rule.head = head then some ((d.book.bodies rule.head).insert rule.body)
      else d.book[head]? := by
    rw [RuleBook.add, RuleBook.getElem?_addAll, Std.ExtTreeSet.insertMany_cons,
      Std.ExtTreeSet.insertMany_nil]
  constructor
  · rintro ⟨hterminals, hnames, hgoal, hrow, hother⟩
    have hbook : d.book.add rule = d'.book := by
      refine Std.ExtTreeMap.ext_getElem? fun head => ?_
      rw [hadd]
      split
      · rename_i heq
        rw [← heq, hrow]
      · rename_i hne
        exact (hother head fun heq => hne heq.symm).symm
    rw [hbook, ← hterminals, ← hnames, ← hgoal]
  · rintro rfl
    exact ⟨rfl, rfl, rfl, (hadd rule.head).trans (if_pos rfl),
      fun head hne => (hadd head).trans (if_neg fun heq => hne heq.symm)⟩

/-- A rule text adds the rule that it states, and nothing else. -/
theorem on_addRule_eq_ok_iff {text : String} : (addRule text).on d = (.ok (), d') ↔
    ∃ rule, d.alphabets.parseRule text = .ok rule ∧ d.HasBesides rule d' := by
  simp only [(addRule_readsFirst text).on_eq_ok_iff, hasBesides_iff]

/-- Over the alphabets of a draft exactly the texts that spell a body are read as it; a refused text
is blamed on its wrappers if they are broken, and refused as a whole otherwise. A rule is added
exactly when its text is cut into a declared head and the text of a body; this adds the rule and
changes nothing else, and a refusal changes nothing at all. -/
theorem ruleTexts_exact (hd : d.Arises) (text : String) :
    (∀ body, d.parseBody text = .ok body ↔ d.alphabets.Writes body text) ∧
    (¬ Lexeme.IsSequence text → ∃ fault, d.parseBody text = .error (.malformedLexeme fault)) ∧
    (Lexeme.IsSequence text → (∀ body, ¬ d.alphabets.Writes body text) →
      d.parseBody text = .error (.malformedRule text)) ∧
    (∀ d', (addRule text).on d = (.ok (), d') ↔ ∃ left right body,
      IsRuleCut text.toList left right ∧ String.ofList (Text.trim left) ∈ d.nonTerminals ∧
      d.parseBody (String.ofList (Text.trim right)) = .ok body ∧
      d.HasBesides ⟨String.ofList (Text.trim left), body⟩ d') ∧
    ∀ error d', (addRule text).on d = (.error error, d') → d' = d := by
  have hlegible : d.alphabets.Legible := hd.reachable.legible.of_alphabets rfl rfl
  have hbody : ∀ body, d.parseBody text = .ok body ↔ d.alphabets.Writes body text :=
    fun body => hlegible.parseBody_eq_ok_iff
  refine ⟨hbody, exists_parseBody_eq_malformedLexeme, fun hlexemes hrefused => ?_,
    fun d' => ?_, fun error d' => (addRule_refines text).eq_of_error⟩
  · exact parseBody_eq_malformedRule hlexemes fun body h => hrefused body ((hbody body).mp h)
  · rw [on_addRule_eq_ok_iff]
    constructor
    · rintro ⟨⟨head, body⟩, hrule, hadded⟩
      obtain ⟨left, right, hcut, rfl, hhead, hbody⟩ := parseRule_eq_ok_iff_isRuleCut.mp hrule
      exact ⟨left, right, body, hcut, hhead, hbody, hadded⟩
    · rintro ⟨left, right, body, hcut, hhead, hbody, hadded⟩
      exact ⟨⟨String.ofList (Text.trim left), body⟩,
        parseRule_eq_ok_iff_isRuleCut.mpr ⟨left, right, hcut, rfl, hhead, hbody⟩, hadded⟩

/-- Of the texts, `a<B>S` and ` A -> a` are accepted; the others have a broken wrapper, a `λ` that
does not stand alone and an arrow too many. -/
theorem ruleTexts_exact_nullableGoal :
    let d := ofGrammar nullableGoal
    d.Arises ∧
    (d.alphabets.Writes [.terminal 'a', .nonTerminal "B", .nonTerminal "S"] "a<B>S" ∧
      d.parseBody "a<B>S" = .ok [.terminal 'a', .nonTerminal "B", .nonTerminal "S"]) ∧
    (¬ Lexeme.IsSequence "a<S" ∧
      ∃ fault, d.parseBody "a<S" = .error (.malformedLexeme fault)) ∧
    (Lexeme.IsSequence "aλ" ∧ (∀ body, ¬ d.alphabets.Writes body "aλ") ∧
      d.parseBody "aλ" = .error (.malformedRule "aλ")) ∧
    (∃ d', (addRule " A -> a").on d = (.ok (), d') ∧ d.HasBesides ⟨"A", [.terminal 'a']⟩ d') ∧
    ∃ error, (addRule "S→a→b").on d = (.error error, d) := by
  intro d
  have harises : d.Arises := arises_ofGrammar reachable_nullableGoal
  obtain ⟨hspelled, -⟩ := ruleTexts_exact harises "a<B>S"
  obtain ⟨-, hlexeme, -⟩ := ruleTexts_exact harises "a<S"
  obtain ⟨hread, -, hrule, -⟩ := ruleTexts_exact harises "aλ"
  obtain ⟨-, -, -, hadded, -⟩ := ruleTexts_exact harises " A -> a"
  obtain ⟨-, -, -, -, hkeeps⟩ := ruleTexts_exact harises "S→a→b"
  have hbody : d.parseBody "a<B>S" = .ok [.terminal 'a', .nonTerminal "B", .nonTerminal "S"] :=
    eq_ok_of_toOption (by decide +kernel)
  have hbroken : ¬ Lexeme.IsSequence "a<S" := by
    rw [Lexeme.isSequence_iff]
    rintro ⟨lexemes, htokens⟩
    have hnone : (Lexeme.tokenize "a<S").toOption = none := by decide
    simp [htokens, Except.toOption] at hnone
  have hsequence : Lexeme.IsSequence "aλ" :=
    Lexeme.isSequence_iff.mpr ⟨[.bare 'a', .bare lambda], rfl⟩
  have hwrites : ∀ body, ¬ d.alphabets.Writes body "aλ" := by
    intro body h
    have hnone : (d.parseBody "aλ").toOption = none := by decide +kernel
    simp [(hread body).mpr h, Except.toOption] at hnone
  have hcut : IsRuleCut " A -> a".toList " A ".toList " a".toList :=
    isRuleCut_iff.mpr ⟨by decide, by decide⟩
  have hhead : String.ofList (Text.trim " A ".toList) = "A" := by decide
  have hrest : d.parseBody (String.ofList (Text.trim " a".toList)) = .ok [.terminal 'a'] :=
    eq_ok_of_toOption (by decide +kernel)
  refine ⟨harises, ⟨(hspelled _).mp hbody, hbody⟩, ⟨hbroken, hlexeme hbroken⟩,
    ⟨hsequence, hwrites, hrule hsequence hwrites⟩, ?_, ?_⟩
  · refine ⟨_, (hadded _).mpr ⟨_, _, _, hcut, ?_, hrest, hasBesides_iff.mpr rfl⟩, ?_⟩
    · rw [hhead]
      decide +kernel
    · rw [hhead]
      exact hasBesides_iff.mpr rfl
  · have hnone : ((addRule "S→a→b").on d).1.toOption = none := by decide +kernel
    rcases hadd : (addRule "S→a→b").on d with ⟨⟨error⟩ | ⟨⟨⟩⟩, d'⟩
    · exact ⟨error, by rw [hkeeps error d' hadd]⟩
    · simp [hadd, Except.toOption] at hnone

end Draft

/-! ### Listings -/

/-- Rules are added one after the other by the lines that list them. -/
theorem Legible.foldlM_addRule_text (hg : g.Legible) {rules : List Rule}
    (hhead : ∀ rule ∈ rules, rule.head ∈ g.nonTerminals)
    (hbody : ∀ rule ∈ rules, ∀ symbol ∈ rule.body, g.Declares symbol) :
    (rules.map Rule.text).foldlM (fun g line => g.addRule line) g =
      .ok { g with rules := g.rules.insertMany rules } := by
  induction rules generalizing g with
  | nil =>
      rw [Std.ExtTreeSet.insertMany_nil]
      rfl
  | cons rule rules ih =>
      obtain ⟨hhead, hheads⟩ := List.forall_mem_cons.mp hhead
      obtain ⟨hbody, hbodies⟩ := List.forall_mem_cons.mp hbody
      have hlegible : { g with rules := g.rules.insert rule }.Legible := hg.of_alphabets rfl rfl
      have hrest := ih hlegible hheads hbodies
      rw [List.map_cons, List.foldlM_cons, hg.addRule_text hhead hbody,
        Std.ExtTreeSet.insertMany_cons]
      exact hrest

/-- Every body is read back from its text, and the lines of the listing, in whatever order, make up
the rules again when they are added over the same alphabets. -/
theorem ruleLines_readBack (hg : g.Reachable) (goal : Option String) {lines : List String}
    (hlines : lines.Perm g.ruleLines) :
    (∀ rule ∈ g.rules, g.parseBody rule.body.text = .ok rule.body) ∧
    lines.foldlM (fun g line => g.addRule line) { g with goal, rules := ∅ } =
      .ok { g with goal } := by
  have hclosed := hg.closed
  refine ⟨fun rule hrule => hg.legible.parseBody_text (hclosed.body rule hrule), ?_⟩
  obtain ⟨listed, rfl, hlisted⟩ :
      ∃ listed : List Rule, lines = listed.map Rule.text ∧ listed.Perm g.rules.toList := by
    have hcomp := congrFun (congrFun (List.eq_map_comp_perm Rule.text) lines) g.rules.toList
    exact hcomp.mpr hlines
  have hrule {rule : Rule} (h : rule ∈ listed) : rule ∈ g.rules :=
    Std.ExtTreeSet.mem_toList.mp (hlisted.mem_iff.mp h)
  have hlegible : { g with goal, rules := ∅ }.Legible := hg.legible.of_alphabets rfl rfl
  have hadded := hlegible.foldlM_addRule_text (fun rule h => hclosed.head rule (hrule h))
    fun rule h => hclosed.body rule (hrule h)
  rw [hadded, insertMany_eq_of_mem_iff fun rule => hlisted.mem_iff.trans Std.ExtTreeSet.mem_toList]

/-- The Chomsky form of a canonical form, whose names are made from terminals, heads and primes. -/
def inventedNames : Grammar :=
  Operation.toChomsky.perform (Operation.toCanonical.perform nullableGoal)

theorem ruleLines_readBack_inventedNames :
    inventedNames.Reachable ∧ inventedNames.ruleLines.reverse.Perm inventedNames.ruleLines ∧
      ⟨"S'", [.nonTerminal "[a]", .nonTerminal "SA"]⟩ ∈ inventedNames.rules ∧
      inventedNames.parseBody (Body.text [.nonTerminal "[a]", .nonTerminal "SA"]) =
        .ok [.nonTerminal "[a]", .nonTerminal "SA"] ∧
      inventedNames.ruleLines.reverse.foldlM (fun g line => g.addRule line)
        { inventedNames with goal := none, rules := ∅ } =
          .ok { inventedNames with goal := none } := by
  have hg : inventedNames.Reachable := by
    rw [inventedNames]
    exact (reachable_nullableGoal.perform .toCanonical).perform .toChomsky
  have hlines := List.reverse_perm inventedNames.ruleLines
  have hrule : ⟨"S'", [.nonTerminal "[a]", .nonTerminal "SA"]⟩ ∈ inventedNames.rules := by
    decide +kernel
  obtain ⟨hbodies, hadded⟩ := ruleLines_readBack hg none hlines
  have hbody := hbodies _ hrule
  exact ⟨hg, hlines, hrule, hbody, hadded⟩

end Grammar

end FormalLanguages
