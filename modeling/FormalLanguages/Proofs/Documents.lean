import FormalLanguages.Proofs.Batches
import FormalLanguages.Proofs.WellFormed
import Mathlib.Data.List.Basic

/-!
Grammars and their documents. A document of a grammar is read back as the same grammar, unless a
body refers to a name `lambda`: that reference is spelled like the placeholder of the empty body,
and no document at all has a grammar with such a body.
-/

namespace FormalLanguages.Grammar

variable {g : Grammar}

/-! ### Entries -/

namespace Entry

/-- The placeholder is spelled like a name. -/
theorem toList_lambdaPlaceholder :
    lambdaPlaceholder.toList = (Lexeme.wrapped "lambda").spelling := by
  decide

theorem bodyText_of_ne_nil {body : Body} (h : body ≠ []) : bodyText body = body.text := by
  simp [bodyText, h]

/-- Putting `λ` for the placeholder gives the text of a body that does not refer to `lambda`. -/
theorem replaceAll_bodyText (hg : g.Legible) {body : Body}
    (h : ∀ symbol ∈ body, g.Declares symbol) (hlambda : .nonTerminal "lambda" ∉ body) :
    Text.replaceAll lambdaPlaceholder.toList [lambda] (bodyText body).toList =
      body.text.toList := by
  by_cases hbody : body = []
  · subst hbody
    show Text.replaceAll lambdaPlaceholder.toList [lambda] lambdaPlaceholder.toList = _
    rw [Text.replaceAll_mark (by decide)]
    rfl
  · rw [bodyText_of_ne_nil hbody]
    apply Text.replaceAll_eq_self
    rw [toList_lambdaPlaceholder]
    intro hinside
    exact hlambda (hg.mem_of_infix_text hbody h (by decide) hinside)

theorem bar_not_mem_bodyText (hg : g.Legible) {body : Body}
    (h : ∀ symbol ∈ body, g.Declares symbol) : alternativeBar ∉ (bodyText body).toList := by
  by_cases hbody : body = []
  · subst hbody
    show alternativeBar ∉ lambdaPlaceholder.toList
    decide
  · rw [bodyText_of_ne_nil hbody]
    intro hbar
    exact (hg.of_mem_text h hbar).2.2 rfl

/-- The rule texts of an entry are those of the rules that it has been made from. -/
theorem ruleTexts_ofBodies (hg : g.Legible) {head : String} {bodies : List Body}
    (hne : bodies ≠ []) (h : ∀ body ∈ bodies, ∀ symbol ∈ body, g.Declares symbol)
    (hlambda : ∀ body ∈ bodies, .nonTerminal "lambda" ∉ body) :
    (ofBodies head bodies).ruleTexts = bodies.map fun body => Rule.text ⟨head, body⟩ := by
  have hfields : Text.fields (· == alternativeBar) (ofBodies head bodies).body.toList =
      bodies.map fun body => (bodyText body).toList := by
    have hparts : (ofBodies head bodies).body.toList =
        [alternativeBar].intercalate (bodies.map fun body => (bodyText body).toList) := by
      simp [ofBodies, String.toList_intercalate, Function.comp_def]
    rw [hparts]
    refine Text.fields_intercalate (by simp) (by simpa using hne) ?_
    simp only [List.forall_mem_map, beq_eq_false_iff_ne]
    intro body hbody c hc
    exact ne_of_mem_of_not_mem hc (bar_not_mem_bodyText hg (h body hbody))
  rw [ruleTexts, hfields, List.map_map]
  refine List.map_congr_left fun body hbody => ?_
  simp [replaceAll_bodyText hg (h body hbody) (hlambda body hbody), Rule.text, ofBodies]

end Entry

namespace Document

/-! ### Reading what is written -/

/-- Texts of rules over the alphabets are added one after the other. -/
theorem addRules_texts (hg : g.Legible) {numbered : List (Nat × String)} {rules : List Rule}
    (htexts : numbered.map Prod.snd = rules.map Rule.text)
    (hhead : ∀ rule ∈ rules, rule.head ∈ g.nonTerminals)
    (hbody : ∀ rule ∈ rules, ∀ symbol ∈ rule.body, g.Declares symbol) :
    addRules numbered g = ({ g with rules := g.rules.insertMany rules }, []) := by
  have hparse : ∀ rule ∈ rules, g.parseRule rule.text = .ok rule :=
    fun rule hrule => hg.parseRule_text (hhead rule hrule) (hbody rule hrule)
  have hstated : (rules.map Rule.text).filterMap (stated? g) = rules := by
    rw [List.filterMap_map]
    exact (List.filterMap_congr fun rule hrule => stated?_eq_some_iff.mpr (hparse rule hrule)).trans
      List.filterMap_some
  have hrefused : numbered.filterMap (refusal? g) = [] := by
    rw [List.filterMap_eq_nil_iff]
    rintro ⟨number, text⟩ hmem
    have htext : text ∈ numbered.map Prod.snd := List.mem_map_of_mem hmem
    rw [htexts] at htext
    obtain ⟨rule, hrule, rfl⟩ := List.mem_map.mp htext
    exact refusal?_eq_none_iff.mpr ⟨rule, hparse rule hrule⟩
  rw [addRules_eq, htexts, hstated, hrefused]

/-- The rules in the order in which a document lists them. -/
def listedRules (rules : RuleTable) : List Rule :=
  rules.rows.flatMap fun row => row.2.map fun body => ⟨row.1, body⟩

theorem mem_listedRules {rules : RuleTable} {rule : Rule} :
    rule ∈ listedRules rules ↔ rule ∈ rules := by
  simp only [listedRules, List.mem_flatMap, List.mem_map, RuleTable.mem_rows_iff]
  constructor
  · rintro ⟨row, ⟨-, hbodies⟩, body, hbody, rfl⟩
    rw [← hbodies] at hbody
    exact RuleTable.mem_bodies.mp hbody
  · intro hrule
    exact ⟨(rule.head, rules.bodies rule.head), ⟨⟨rule.body, hrule⟩, rfl⟩, rule.body,
      RuleTable.mem_bodies.mpr hrule, rfl⟩

theorem insertMany_listedRules (rules : RuleTable) :
    (∅ : RuleTable).insertMany (listedRules rules) = rules :=
  insertMany_eq_of_mem_iff fun _ => mem_listedRules

/-- The rule texts of a document, without the numbers, are those of its entries. -/
theorem map_snd_numberedRules (document : Document) :
    document.numberedRules.map Prod.snd = document.entries.flatMap Entry.ruleTexts := by
  rw [numberedRules]
  generalize document.entries = entries, 1 = start
  induction entries generalizing start with
  | nil => rfl
  | cons entry entries ih => simp [List.zipIdx_cons, ih, Function.comp_def]

theorem numberedRules_ofGrammar (hg : g.Legible) (hclosed : g.Closed)
    (hlambda : ¬ g.rules.Mentions "lambda") :
    (ofGrammar g).numberedRules.map Prod.snd = (listedRules g.rules).map Rule.text := by
  have hrow : ∀ row ∈ g.rules.rows, (Entry.ofBodies row.1 row.2).ruleTexts =
      row.2.map fun body => Rule.text ⟨row.1, body⟩ := by
    intro row hrow
    obtain ⟨-, hbodies⟩ := RuleTable.mem_rows_iff.mp hrow
    have hrule {body : Body} (hbody : body ∈ row.2) : ⟨row.1, body⟩ ∈ g.rules := by
      rw [← hbodies] at hbody
      exact RuleTable.mem_bodies.mp hbody
    refine Entry.ruleTexts_ofBodies hg (RuleTable.ne_nil_of_mem_rows hrow) ?_ ?_
    · exact fun body hbody => hclosed.body _ (hrule hbody)
    · exact fun body hbody hmem => hlambda ⟨_, hrule hbody, hmem⟩
  rw [map_snd_numberedRules, ofGrammar, listedRules, List.flatMap_map, List.map_flatMap]
  refine List.flatMap_congr fun row hmem => ?_
  rw [hrow row hmem, List.map_map]
  rfl

/-! ### The header -/

theorem setTerminals_ofList (hg : g.Legible) :
    Grammar.empty.setTerminals (String.ofList g.terminals.toList) =
      .ok { terminals := g.terminals } := by
  have hletter : ∀ c ∈ g.terminals.toList, isReserved c = false :=
    fun c hc => hg.letter c (Std.ExtTreeSet.mem_toList.mp hc)
  have hlisted : Text.trim (String.ofList g.terminals.toList).toList = g.terminals.toList := by
    rw [String.toList_ofList]
    exact Text.trim_eq_self fun c hc => isBlank_eq_false (hletter c hc)
  refine setTerminals_eq_ok_iff.mpr ⟨⟨?_, ?_, by simp [Grammar.empty]⟩, ?_⟩
  · rwa [hlisted]
  · rw [hlisted]
    exact nodup_toList _
  · rw [withTerminals, hlisted, insertMany_toList]
    rfl

theorem listedNames_intercalate {names : List String} (h : ∀ name ∈ names, IsName name) :
    listedNames (";".intercalate names) = names.map String.toList := by
  by_cases hnames : names = []
  · subst hnames
    rfl
  · have hfields : Text.fields isNameSeparator (";".intercalate names).toList =
        names.map String.toList := by
      rw [String.toList_intercalate]
      refine Text.fields_intercalate (by decide) (by simpa using hnames) ?_
      simp only [List.forall_mem_map]
      exact fun name hname => (h name hname).not_separator
    have htrim : (names.map String.toList).map Text.trim = names.map String.toList := by
      rw [List.map_map]
      exact List.map_congr_left fun name hname => (h name hname).trim_eq_self
    rw [listedNames, hfields, htrim, List.filter_eq_self]
    simp only [List.forall_mem_map]
    intro name hname
    simpa using (h name hname).ne_empty

theorem setNonTerminals_intercalate (hg : g.Legible) :
    Grammar.setNonTerminals (";".intercalate g.nonTerminals.toList)
      { terminals := g.terminals } =
        .ok { terminals := g.terminals, nonTerminals := g.nonTerminals } := by
  have hlisted : listedNames (";".intercalate g.nonTerminals.toList) =
      g.nonTerminals.toList.map String.toList :=
    listedNames_intercalate fun name hname => hg.name name (Std.ExtTreeSet.mem_toList.mp hname)
  have hmem : ∀ letters ∈ listedNames (";".intercalate g.nonTerminals.toList),
      String.ofList letters ∈ g.nonTerminals := by
    intro letters hletters
    rw [hlisted] at hletters
    obtain ⟨name, hname, rfl⟩ := List.mem_map.mp hletters
    simpa using hname
  refine setNonTerminals_eq_ok_iff.mpr
    ⟨⟨fun letters hletters c hc => ?_, ?_, fun c hc hterminal => ?_⟩, ?_⟩
  · exact (hg.name _ (hmem letters hletters)).not_reserved c (by simpa using hc)
  · rw [hlisted]
    exact (nodup_toList _).map fun _ _ => String.toList_inj.mp
  · exact hg.apart c hterminal (hmem [c] hc)
  · have hmap : (g.nonTerminals.toList.map String.toList).map String.ofList =
        g.nonTerminals.toList := by simp [Function.comp_def]
    rw [withNonTerminals, hlisted, hmap, insertMany_toList]
    rfl

theorem header_ofGrammar (hg : g.Legible) (hclosed : g.Closed) :
    (ofGrammar g).header = .ok { g with rules := ∅ } := by
  obtain ⟨terminals, nonTerminals, goal, rules⟩ := g
  have hfirst := setTerminals_ofList hg
  have hsecond := setNonTerminals_intercalate hg
  simp only [header, ofGrammar, hfirst, hsecond, bind, Except.bind]
  cases goal with
  | none => rfl
  | some goal =>
      have hmem : goal ∈ nonTerminals := hclosed.goal goal rfl
      have hempty : goal.isEmpty = false := by simpa using (hg.name goal hmem).ne_empty
      simp [hempty, setGoal, hmem]

theorem toGrammar_ofGrammar (hg : g.Legible) (hclosed : g.Closed)
    (hlambda : ¬ g.rules.Mentions "lambda") : (ofGrammar g).toGrammar = .ok g := by
  have hlegible : { g with rules := ∅ }.Legible := hg.of_alphabets rfl rfl
  have hrules := addRules_texts hlegible (numberedRules_ofGrammar hg hclosed hlambda)
    (fun rule hrule => hclosed.head rule (mem_listedRules.mp hrule))
    (fun rule hrule => hclosed.body rule (mem_listedRules.mp hrule))
  rw [insertMany_listedRules] at hrules
  exact toGrammar_eq_ok_iff.mpr ⟨_, header_ofGrammar hg hclosed, hrules⟩

/-! ### What no document holds -/

/-- Once the placeholder has been replaced, a rule text has no body that refers to `lambda`. -/
theorem not_mem_of_mem_ruleTexts {entry : Entry} {text : String} (htext : text ∈ entry.ruleTexts)
    {rule : Rule} (h : g.parseRule text = .ok rule) : .nonTerminal "lambda" ∉ rule.body := by
  obtain ⟨alternative, -, rfl⟩ := List.mem_map.mp htext
  obtain ⟨-, body, hsplit, hbody⟩ := parseRule_eq_ok_iff.mp h
  intro hmem
  obtain ⟨-, rfl⟩ := eq_of_splitRule hsplit
  have hinside := infix_of_parseBody hbody (by decide) hmem
  rw [← Entry.toList_lambdaPlaceholder, String.toList_ofList, String.toList_ofList] at hinside
  exact Text.not_infix_replaceAll (by decide) (by decide) alternative
    (hinside.trans (Text.isInfix_trim _))

theorem rules_of_header {document : Document} (h : document.header = .ok g) : g.rules = ∅ := by
  obtain ⟨lettered, named, -, hnames, hgoal⟩ := header_eq_ok_iff.mp h
  obtain ⟨-, rfl⟩ := setNonTerminals_eq_ok_iff.mp hnames
  split at hgoal
  · rw [← hgoal]
    rfl
  · unfold setGoal at hgoal
    split at hgoal
    · obtain rfl := Except.ok.inj hgoal
      rfl
    · simp at hgoal

/-- No grammar of a document has a body that refers to `lambda`. -/
theorem not_mentions_of_toGrammar {document : Document} (h : document.toGrammar = .ok g) :
    ¬ g.rules.Mentions "lambda" := by
  rintro ⟨rule, hrule, hmem⟩
  obtain ⟨header, hheader, hrules⟩ := toGrammar_eq_ok_iff.mp h
  have hadded : rule ∈ (addRules document.numberedRules header).1.rules := by
    rw [hrules]
    exact hrule
  rcases mem_addRules.mp hadded with hold | ⟨text, htext, hparse⟩
  · simp [rules_of_header hheader] at hold
  · rw [map_snd_numberedRules] at htext
    obtain ⟨entry, -, htext⟩ := List.mem_flatMap.mp htext
    exact not_mem_of_mem_ruleTexts htext hparse hmem

/-! ### Saving and loading -/

/-- The document of a grammar is read back as that grammar exactly when no body refers to a name
`lambda`. -/
theorem toGrammar_ofGrammar_iff (hg : g.Reachable) :
    (ofGrammar g).toGrammar = .ok g ↔ ¬ g.rules.Mentions "lambda" :=
  ⟨not_mentions_of_toGrammar, toGrammar_ofGrammar hg.legible hg.closed⟩

/-- The Chomsky form has names that are made from terminals and primes. -/
theorem toGrammar_ofGrammar_nullableGoal :
    nullableGoal.toChomsky.Reachable ∧ ¬ nullableGoal.toChomsky.rules.Mentions "lambda" ∧
      (ofGrammar nullableGoal.toChomsky).toGrammar = .ok nullableGoal.toChomsky := by
  have hg : nullableGoal.toChomsky.Reachable := reachable_nullableGoal.apply .toChomsky rfl
  have hall : ∀ rule ∈ nullableGoal.toChomsky.rules.toList,
      .nonTerminal "lambda" ∉ rule.body := by decide +kernel
  have hlambda : ¬ nullableGoal.toChomsky.rules.Mentions "lambda" := by
    rintro ⟨rule, hrule, hmem⟩
    exact hall rule (Std.ExtTreeSet.mem_toList.mpr hrule) hmem
  exact ⟨hg, hlambda, (toGrammar_ofGrammar_iff hg).mpr hlambda⟩

/-- The chain body of the goal is written like the empty body. -/
def lambdaName : Grammar :=
  ofCalls [.setTerminals "a", .setNonTerminals "S;lambda", .setGoal "S", .addRule "S→<lambda>",
    .addRule "lambda→a"]

theorem toGrammar_ofGrammar_lambdaName : lambdaName.Reachable ∧
    ∃ g, (ofGrammar lambdaName).toGrammar = .ok g ∧ g ≠ lambdaName ∧
      ⟨"S", []⟩ ∈ g.rules ∧ ⟨"S", [.nonTerminal "lambda"]⟩ ∉ g.rules := by
  have h : ∃ g ∈ (ofGrammar lambdaName).toGrammar.toOption, g ≠ lambdaName ∧
      ⟨"S", []⟩ ∈ g.rules ∧ ⟨"S", [.nonTerminal "lambda"]⟩ ∉ g.rules := by
    decide +kernel
  obtain ⟨g, hg, hne⟩ := h
  exact ⟨reachable_ofCalls _, g, eq_ok_of_toOption hg, hne⟩

/-- However a document is written, the grammar that it holds has a document that is read back as
the same grammar. -/
theorem toGrammar_ofGrammar_of_toGrammar {document : Document} (h : document.toGrammar = .ok g) :
    (ofGrammar g).toGrammar = .ok g := by
  have hg : g.Reachable := reachable_toGrammar h
  exact toGrammar_ofGrammar hg.legible hg.closed (not_mentions_of_toGrammar h)

/-- Blanks, both separators, a name `lambda`, two spellings of the empty body, a head in three
entries and a body listed twice. -/
def looseSpelling : Document where
  terminals := "  ab;"
  nonTerminals := " S; lambda ,, expr;"
  goal := "S"
  entries := [⟨" S ", "a<expr>; | <lambda>"⟩, ⟨"lambda", "b"⟩, ⟨"S", "λ|<S>a"⟩,
    ⟨"expr", "<lambda>|<expr>SS| b"⟩, ⟨"S", "Sa"⟩]

theorem toGrammar_ofGrammar_looseSpelling :
    ∃ g, looseSpelling.toGrammar = .ok g ∧ (ofGrammar g).toGrammar = .ok g := by
  have hread : looseSpelling.toGrammar.toOption.isSome = true := by decide +kernel
  obtain ⟨g, hg⟩ := Option.isSome_iff_exists.mp hread
  have hg : looseSpelling.toGrammar = .ok g := eq_ok_of_toOption hg
  exact ⟨g, hg, toGrammar_ofGrammar_of_toGrammar hg⟩

end Document

end FormalLanguages.Grammar
