import FormalLanguages.Grammar.Draft.Document
import FormalLanguages.Proofs.Batches
import FormalLanguages.Proofs.Canonical.InPlace
import FormalLanguages.Proofs.RuleBooks

/-!
Edits of drafts and calls on grammars. In place, each edit does to the grammar of a draft what the
call makes of it, and an edit that is refused leaves the draft as it was: all it does to the draft
comes after the last refusal. No edit leaves an empty row behind.
-/

namespace FormalLanguages.Grammar

open RuleTable

variable {α β : Type} {d d' : Draft} {g : Grammar}

/-- In place the edit does what the call does to the grammar of a draft. Where the call is refused
the edit is refused as well, and the draft is what it was. -/
structure Edit.Refines (edit : Edit α) (call : Grammar → Except Error Grammar) : Prop where
  of_ok {d : Draft} {g : Grammar} (h : call d.grammar = .ok g) : ∃ answer d',
    edit.on d = (.ok answer, d') ∧ d'.grammar = g ∧ (d.book.Tidy → d'.book.Tidy)
  of_error {d : Draft} {error : Error} (h : call d.grammar = .error error) :
    edit.on d = (.error error, d)

/-- Like refinement, but a refused edit may leave something else: it has been made of several. -/
structure Edit.Follows (edit : Edit α) (call : Grammar → Except Error Grammar) : Prop where
  of_ok {d : Draft} {g : Grammar} (h : call d.grammar = .ok g) : ∃ answer d',
    edit.on d = (.ok answer, d') ∧ d'.grammar = g ∧ (d.book.Tidy → d'.book.Tidy)
  of_error {d : Draft} {error : Error} (h : call d.grammar = .error error) : ∃ d',
    edit.on d = (.error error, d')

namespace Edit.Follows

variable {first : Edit α} {next : α → Edit β} {call call' : Grammar → Except Error Grammar}

theorem pure (answer : α) : (Pure.pure answer : Edit α).Follows .ok where
  of_ok {d g} h := ⟨answer, d, rfl, Except.ok.inj h, id⟩
  of_error h := by simp at h

theorem bind (hfirst : first.Follows call) (hnext : ∀ answer, (next answer).Follows call') :
    (first >>= next : Edit β).Follows fun g => call g >>= call' where
  of_ok {d g} h := by
    obtain ⟨g', hcall, hcall'⟩ := bind_eq_ok.mp h
    obtain ⟨answer, d', hon, rfl, htidy⟩ := hfirst.of_ok hcall
    obtain ⟨answer', d'', hon', hg, htidy'⟩ := (hnext answer).of_ok hcall'
    refine ⟨answer', d'', ?_, hg, fun hd => htidy' (htidy hd)⟩
    rw [InPlace.on_bind, hon]
    exact hon'
  of_error {d error} h := by
    cases hcall : call d.grammar with
    | error other =>
        obtain ⟨d', hon⟩ := hfirst.of_error hcall
        rw [hcall] at h
        obtain rfl : other = error := Except.error.inj h
        exact ⟨d', by rw [InPlace.on_bind, hon]⟩
    | ok g =>
        obtain ⟨answer, d', hon, rfl, -⟩ := hfirst.of_ok hcall
        rw [hcall] at h
        obtain ⟨d'', hon'⟩ := (hnext answer).of_error h
        refine ⟨d'', ?_⟩
        rw [InPlace.on_bind, hon]
        exact hon'

theorem tidy (h : first.Follows call) {answer : α} (hon : first.on d = (.ok answer, d'))
    (hd : d.book.Tidy) : d'.book.Tidy := by
  cases hcall : call d.grammar with
  | error error =>
      obtain ⟨d'', hrefused⟩ := h.of_error hcall
      simp [hon] at hrefused
  | ok g =>
      obtain ⟨_, d'', hon', -, htidy⟩ := h.of_ok hcall
      obtain ⟨-, rfl⟩ := Prod.mk.inj (hon.symm.trans hon')
      exact htidy hd

end Edit.Follows

namespace Edit.Refines

variable {edit : Edit α} {call : Grammar → Except Error Grammar}

theorem follows (h : edit.Refines call) : edit.Follows call where
  of_ok := h.of_ok
  of_error {d _} hcall := ⟨d, h.of_error hcall⟩

/-- Whatever becomes of the edit, the call knows it. -/
theorem cases (h : edit.Refines call) (d : Draft) :
    (∃ g answer d', call d.grammar = .ok g ∧ edit.on d = (.ok answer, d') ∧ d'.grammar = g ∧
      (d.book.Tidy → d'.book.Tidy)) ∨
    ∃ error, call d.grammar = .error error ∧ edit.on d = (.error error, d) := by
  cases hcall : call d.grammar with
  | ok g =>
      obtain ⟨answer, d', hon, hgrammar, htidy⟩ := h.of_ok hcall
      exact .inl ⟨g, answer, d', rfl, hon, hgrammar, htidy⟩
  | error error => exact .inr ⟨error, rfl, h.of_error hcall⟩

theorem tidy (h : edit.Refines call) (hd : d.book.Tidy) : (edit.on d).2.book.Tidy := by
  rcases h.cases d with ⟨g, answer, d', -, hon, -, htidy⟩ | ⟨error, -, hon⟩
  · rw [hon]
    exact htidy hd
  · rw [hon]
    exact hd

theorem grammar_of_ok (h : edit.Refines call) (hcall : call d.grammar = .ok g) :
    (edit.on d).2.grammar = g := by
  obtain ⟨answer, d', hon, hgrammar, -⟩ := h.of_ok hcall
  rw [hon, hgrammar]

/-- It does not matter whether anyone listens to the answer. -/
theorem without_answer (h : edit.Refines call) :
    (edit >>= fun _ => Pure.pure () : Edit Unit).Refines call where
  of_ok {d g} hcall := by
    obtain ⟨answer, d', hon, hg, htidy⟩ := h.of_ok hcall
    exact ⟨(), d', by simp only [InPlace.on_bind, hon, InPlace.on_pure], hg, htidy⟩
  of_error {d error} hcall := by rw [InPlace.on_bind, h.of_error hcall]

/-- A refused edit changes nothing. -/
theorem eq_of_error (h : edit.Refines call) {error : Error}
    (hon : edit.on d = (.error error, d')) : d' = d := by
  rcases h.cases d with ⟨_, _, _, -, hok, -⟩ | ⟨_, -, herror⟩
  · simp [hon] at hok
  · rw [hon] at herror
    exact (Prod.mk.inj herror).2

end Edit.Refines

/-- The edit only reads before it can be refused, and only writes after that. -/
structure Edit.ReadsFirst (edit : Edit Unit) (read : Draft → Except Error β)
    (write : β → Draft → Draft) : Prop where
  of_ok {d : Draft} {value : β} (h : read d = .ok value) : edit.on d = (.ok (), write value d)
  of_error {d : Draft} {error : Error} (h : read d = .error error) : edit.on d = (.error error, d)

namespace Edit.ReadsFirst

variable {edit : Edit Unit} {read : Draft → Except Error β} {write : β → Draft → Draft}
  {call : Grammar → Except Error Grammar}

theorem on_eq_ok_iff (h : edit.ReadsFirst read write) :
    edit.on d = (.ok (), d') ↔ ∃ value, read d = .ok value ∧ write value d = d' := by
  cases hread : read d with
  | error error => simp [h.of_error hread]
  | ok value => simp [h.of_ok hread]

/-- Such an edit does what a call does that depends on the same reading. -/
theorem refines (h : edit.ReadsFirst read write)
    (hcall : ∀ d, call d.grammar = (read d).map fun value => (write value d).grammar)
    (htidy : ∀ value d, d.book.Tidy → (write value d).book.Tidy) : edit.Refines call where
  of_ok {d g} hok := by
    rw [hcall] at hok
    cases hread : read d with
    | error error => simp [hread, Except.map] at hok
    | ok value =>
        refine ⟨(), write value d, h.of_ok hread, ?_, htidy value d⟩
        simpa [hread, Except.map] using hok
  of_error {d error} herror := by
    rw [hcall, map_eq_error_iff] at herror
    exact h.of_error herror

end Edit.ReadsFirst

namespace Draft

/-! ### Alphabets, goals and rules -/

theorem parseRule_alphabets (d : Draft) : d.alphabets.parseRule = d.grammar.parseRule :=
  parseRule_eq_of_alphabets rfl rfl

theorem setTerminals_readsFirst (text : String) : (setTerminals text).ReadsFirst
    (fun d => readTerminals d.nonTerminals ∅ (Text.trim text.toList))
    fun terminals d => { d with terminals, book := ∅ } where
  of_ok h := by rw [on_setTerminals, h]
  of_error h := by rw [on_setTerminals, h]

theorem setTerminals_refines (text : String) :
    (setTerminals text).Refines (Grammar.setTerminals text) := by
  refine (setTerminals_readsFirst text).refines (fun d => ?_) fun _ _ _ => RuleBook.tidy_empty
  simp only [Grammar.setTerminals, grammar, RuleBook.rules_empty]
  cases readTerminals d.nonTerminals ∅ (Text.trim text.toList) <;> rfl

theorem setNonTerminals_readsFirst (text : String) : (setNonTerminals text).ReadsFirst
    (fun d => readNonTerminals d.terminals ∅ (listedNames text))
    fun nonTerminals d =>
      { d with nonTerminals, goal := d.goal.filter (· ∈ nonTerminals), book := ∅ } where
  of_ok h := by rw [on_setNonTerminals, h]
  of_error h := by rw [on_setNonTerminals, h]

theorem setNonTerminals_refines (text : String) :
    (setNonTerminals text).Refines (Grammar.setNonTerminals text) := by
  refine (setNonTerminals_readsFirst text).refines (fun d => ?_) fun _ _ _ => RuleBook.tidy_empty
  simp only [Grammar.setNonTerminals, grammar, RuleBook.rules_empty]
  cases readNonTerminals d.terminals ∅ (listedNames text) <;> rfl

theorem setGoal_readsFirst (name : String) : (setGoal name).ReadsFirst
    (fun d => if name ∈ d.nonTerminals then .ok () else .error (.invalidGoal name))
    fun _ d => { d with goal := some name } where
  of_ok {d _} h := by
    by_cases hname : name ∈ d.nonTerminals
    · exact (on_setGoal name d).trans (if_pos hname)
    · simp [hname] at h
  of_error {d error} h := by
    by_cases hname : name ∈ d.nonTerminals
    · simp [hname] at h
    · rw [if_neg hname] at h
      obtain rfl := Except.error.inj h
      exact (on_setGoal name d).trans (if_neg hname)

theorem setGoal_refines (name : String) : (setGoal name).Refines (Grammar.setGoal name) := by
  refine (setGoal_readsFirst name).refines (fun d => ?_) fun _ _ => id
  by_cases hname : name ∈ d.nonTerminals <;> simp [Grammar.setGoal, grammar, hname, Except.map]

theorem addRule_readsFirst (text : String) : (addRule text).ReadsFirst
    (fun d => d.alphabets.parseRule text) fun rule d => { d with book := d.book.add rule } where
  of_ok h := by rw [on_addRule, h]
  of_error h := by rw [on_addRule, h]

theorem addRule_refines (text : String) : (addRule text).Refines (Grammar.addRule text) := by
  refine (addRule_readsFirst text).refines (fun d => ?_) fun rule _ hd => hd.add rule
  rw [Grammar.addRule, parseRule_alphabets]
  cases d.grammar.parseRule text with
  | error error => rfl
  | ok rule =>
      simp only [grammar, RuleBook.rules_add]
      rfl

theorem removeRule_refines (rule : Rule) :
    (removeRule rule).Refines fun g => .ok (g.removeRule rule) where
  of_ok {d g} h := by
    obtain rfl := Except.ok.inj h
    refine ⟨_, _, on_removeRule rule d, ?_, fun hd => hd.remove rule⟩
    simp only [grammar, RuleBook.rules_remove, Grammar.removeRule]
  of_error h := by simp at h

/-- The answer says whether the draft had the rule. -/
theorem removeRule_answer (rule : Rule) (d : Draft) :
    ((removeRule rule).on d).1 = .ok (decide (rule ∈ d.grammar.rules)) := by
  rw [on_removeRule, RuleBook.remove_fst, grammar_rules]

/-! ### Passes -/

theorem grammar_retainRules (test : Symbol → Bool) (d : Draft) :
    (d.retainRules test).grammar = d.grammar.retainRules test := by
  simp only [retainRules, Grammar.retainRules, grammar, RuleBook.rules_retain]
  rfl

theorem grammar_removeBarren (d : Draft) : d.removeBarren.grammar = d.grammar.removeBarren := by
  rw [removeBarren, grammar_retainRules]
  rfl

theorem grammar_removeUnreachable (goal : String) (d : Draft) :
    (d.removeUnreachable goal).grammar = d.grammar.removeUnreachable goal := by
  rw [removeUnreachable, grammar_retainRules]
  rfl

theorem tidy_removeUnreachable (goal : String) (d : Draft) :
    (d.removeUnreachable goal).book.Tidy :=
  RuleBook.tidy_revise _ _

/-- Only declared names head a row. -/
def HeadsDeclared (d : Draft) : Prop :=
  ∀ head ∈ d.book, head ∈ d.nonTerminals

theorem headsDeclared_removeUnreachable (goal : String) (d : Draft) :
    (d.removeUnreachable goal).HeadsDeclared :=
  fun _ hhead => RuleBook.mem_of_mem_retain hhead

theorem headsDeclared_of_closed (hd : d.grammar.Closed) (htidy : d.book.Tidy) :
    d.HeadsDeclared := by
  intro head hhead
  obtain ⟨body, hbody⟩ := htidy.mem_iff.mp hhead
  exact hd.head ⟨head, body⟩ (RuleBook.mem_rules.mpr hbody)

/-- The row of the fresh goal takes the place of no other row, as all heads are declared. -/
theorem grammar_removeLambda (hd : d.HeadsDeclared) (goal : String) :
    (d.removeLambda goal).grammar = d.grammar.removeLambda goal := by
  unfold removeLambda Grammar.removeLambda
  simp only [grammar_rules, grammar_nonTerminals, ← RuleBook.rules_withoutNullable]
  split
  · rfl
  · split
    · have hfresh : ((NameSupply.mk d.nonTerminals []).fresh (goal ++ "'")).1 ∉
          d.book.withoutNullable d.book.rules.nullable := fun hrow =>
        NameSupply.fresh_not_mem_taken _ _ (hd _ (RuleBook.mem_of_mem_revise hrow))
      simp only [grammar, RuleBook.rules_insert_pair hfresh]
    · simp only [grammar, RuleBook.rules_add]

theorem tidy_removeLambda (goal : String) (d : Draft) : (d.removeLambda goal).book.Tidy := by
  have hvariants : (d.book.withoutNullable d.book.rules.nullable).Tidy :=
    RuleBook.tidy_revise _ _
  unfold removeLambda
  dsimp only
  split
  · exact hvariants
  · split
    · refine hvariants.insert fun hempty => ?_
      have hbody : ([] : Body) ∈ Std.ExtTreeSet.ofList [[], [Symbol.nonTerminal goal]] := by simp
      simp [hempty] at hbody
    · exact hvariants.add _

theorem grammar_removeChains (d : Draft) : d.removeChains.grammar = d.grammar.removeChains := by
  simp only [removeChains, Grammar.removeChains, grammar, RuleBook.rules_withoutChains]

/-! ### Forms -/

@[simp] theorem on_currentGoal (d : Draft) : currentGoal.on d = (d.grammar.requireGoal, d) := by
  obtain ⟨terminals, nonTerminals, goal, book⟩ := d
  cases goal <;> rfl

section

variable {run : Canonization} {goal root : String} (h : run.Of d.grammar goal root)

include h

theorem grammar_connected : (d.removeBarren.removeUnreachable goal).grammar = run.connected := by
  rw [grammar_removeUnreachable, grammar_removeBarren, h.connected_eq, h.productive_eq]

theorem grammar_lambdaFree :
    ((d.removeBarren.removeUnreachable goal).removeLambda goal).grammar = run.lambdaFree := by
  rw [grammar_removeLambda (headsDeclared_removeUnreachable goal _), grammar_connected h,
    h.lambdaFree_eq]

theorem grammar_chainFree :
    ((d.removeBarren.removeUnreachable goal).removeLambda goal).removeChains.grammar =
      run.chainFree := by
  rw [grammar_removeChains, grammar_lambdaFree h, h.chainFree_eq]

/-- The passes of a run in place, one on what the other has left. -/
theorem on_toCanonical : toCanonical.on d = (.ok (),
    (((d.removeBarren.removeUnreachable goal).removeLambda goal).removeChains.removeBarren
      |>.removeUnreachable root)) := by
  have hgoal : d.grammar.requireGoal = .ok goal := requireGoal_eq_ok.mpr h.goal_eq
  have hgenerating : goal ∈ d.book.rules.generating := mem_generating_iff.mpr h.derives_goal
  have hroot := requireGoal_eq_ok.mpr h.root_eq
  rw [← grammar_chainFree h] at hroot
  simp only [toCanonical, InPlace.on_bind, on_currentGoal, hgoal, InPlace.on_get, hgenerating,
    not_true_eq_false, if_false, InPlace.on_modify, hroot]

end

theorem toCanonical_refines : toCanonical.Refines Grammar.toCanonical where
  of_ok {d g} hg := by
    obtain ⟨run, goal, root, -, rfl, h⟩ := toCanonical_eq_ok hg
    refine ⟨(), _, on_toCanonical h, ?_, fun _ => tidy_removeUnreachable _ _⟩
    rw [grammar_removeUnreachable, grammar_removeBarren, grammar_chainFree h, h.result_eq]
  of_error {d error} herror := by
    rw [Grammar.toCanonical, map_eq_error_iff] at herror
    rcases canonize_cases d.grammar with
      ⟨hgoal, hrun⟩ | ⟨goal, hgoal, hbarren, hrun⟩ | ⟨run, goal, root, hrun, -⟩
    · have hrequire : d.grammar.requireGoal = .error .missingGoal := by rw [requireGoal, hgoal]
      obtain rfl := Except.error.inj (hrun.symm.trans herror)
      simp only [toCanonical, InPlace.on_bind, on_currentGoal, hrequire]
    · have hrequire : d.grammar.requireGoal = .ok goal := requireGoal_eq_ok.mpr hgoal
      have hgenerating : goal ∉ d.book.rules.generating := mt mem_generating_iff.mp hbarren
      obtain rfl := Except.error.inj (hrun.symm.trans herror)
      simp only [toCanonical, InPlace.on_bind, on_currentGoal, hrequire, InPlace.on_get,
        hgenerating, not_false_eq_true, if_true, InPlace.on_throw]
    · simp [hrun] at herror

/-- Where the canonical form is made, the passes are those of a run. -/
theorem exists_run_of_taken {goal : String} (hgoal : d.goal = some goal)
    (htaken : (toCanonical.on d).1 = .ok ()) :
    ∃ (run : Canonization) (root : String), run.Of d.grammar goal root := by
  rcases toCanonical_refines.cases d with ⟨g, _, _, hcall, -⟩ | ⟨error, -, hon⟩
  · obtain ⟨run, goal', root, -, -, h⟩ := toCanonical_eq_ok hcall
    obtain rfl : goal = goal' := Option.some.inj (hgoal.symm.trans h.goal_eq)
    exact ⟨run, root, h⟩
  · simp [hon] at htaken

theorem on_toCanonical_ofGrammar {g' : Grammar} (h : g.toCanonical = .ok g') :
    (toCanonical.on (ofGrammar g)).1 = .ok () := by
  rw [← grammar_ofGrammar g] at h
  obtain ⟨_, _, hon, -⟩ := toCanonical_refines.of_ok h
  rw [hon]

theorem toChomsky_refines : toChomsky.Refines fun g => .ok g.toChomsky where
  of_ok {d g} h := by
    obtain rfl := Except.ok.inj h
    refine ⟨(), _, rfl, ?_, fun _ => RuleBook.tidy_ofRules _⟩
    simp only [grammar, RuleBook.rules_ofRules]
    rfl
  of_error h := by simp at h

end Draft

/-! ### Documents -/

namespace Document

theorem grammar_new : ({} : Draft).grammar = Grammar.empty := by
  rw [Draft.grammar, RuleBook.rules_empty]
  rfl

theorem writeHeader_follows (document : Document) : document.writeHeader.Follows fun g =>
    g.setTerminals document.terminals >>= fun g =>
      g.setNonTerminals document.nonTerminals >>= fun g =>
        if document.goal.isEmpty then .ok g else g.setGoal document.goal := by
  refine (Draft.setTerminals_refines document.terminals).follows.bind fun _ => ?_
  refine (Draft.setNonTerminals_refines document.nonTerminals).follows.bind fun _ => ?_
  by_cases hgoal : document.goal.isEmpty = true
  · simp only [hgoal]
    exact .pure ()
  · simp only [hgoal]
    exact (Draft.setGoal_refines document.goal).follows

/-- Rules are written one after the other as they are added. -/
theorem writeRules_refines (numbered : List (Nat × String)) (d : Draft) :
    addRules numbered d.grammar =
      ((writeRules numbered d).1.grammar, (writeRules numbered d).2) ∧
    (d.book.Tidy → (writeRules numbered d).1.book.Tidy) := by
  induction numbered generalizing d with
  | nil => exact ⟨rfl, id⟩
  | cons first numbered ih =>
      obtain ⟨number, text⟩ := first
      rcases (Draft.addRule_refines text).cases d with
        ⟨g, _, d', hcall, hon, rfl, htidy⟩ | ⟨error, hcall, hon⟩
      · simp only [addRules, writeRules, hcall, hon, (ih d').1]
        exact ⟨trivial, fun hd => (ih d').2 (htidy hd)⟩
      · simp only [addRules, writeRules, hcall, hon, (ih d).1]
        exact ⟨trivial, (ih d).2⟩

theorem on_writeHeader_of_ok {document : Document} (h : document.header = .ok g) :
    ∃ d, document.writeHeader.on {} = (.ok (), d) ∧ d.grammar = g := by
  rw [header, ← grammar_new] at h
  obtain ⟨_, d, hon, hg, -⟩ := document.writeHeader_follows.of_ok h
  exact ⟨d, hon, hg⟩

theorem on_writeHeader_of_error {document : Document} {error : Error}
    (h : document.header = .error error) :
    ∃ d, document.writeHeader.on {} = (.error error, d) := by
  rw [header, ← grammar_new] at h
  exact document.writeHeader_follows.of_error h

/-- A document is read in place as it is read otherwise, with the same errors. -/
theorem map_grammar_toDraft (document : Document) :
    document.toDraft.map Draft.grammar = document.toGrammar := by
  unfold toDraft toGrammar
  cases h : document.header with
  | error error =>
      obtain ⟨d, hon⟩ := on_writeHeader_of_error h
      simp only [hon, Except.map]
  | ok g =>
      obtain ⟨d, hon, rfl⟩ := on_writeHeader_of_ok h
      simp only [hon, (writeRules_refines document.numberedRules d).1]
      rcases writeRules document.numberedRules d with ⟨d, _ | ⟨_, _⟩⟩ <;> rfl

theorem toGrammar_of_toDraft {document : Document} (h : document.toDraft = .ok d) :
    document.toGrammar = .ok d.grammar := by
  rw [← map_grammar_toDraft, h]
  rfl

theorem tidy_of_toDraft {document : Document} (h : document.toDraft = .ok d) : d.book.Tidy := by
  unfold toDraft at h
  split at h
  · simp at h
  · rename_i base hon
    have hbase : base.book.Tidy := document.writeHeader_follows.tidy hon RuleBook.tidy_empty
    have hrules := (writeRules_refines document.numberedRules base).2 hbase
    split at h
    · rename_i written hwritten
      obtain rfl := Except.ok.inj h
      rwa [hwritten] at hrules
    · simp at h

end Document

end FormalLanguages.Grammar
