import FormalLanguages.Proofs.WellFormed

/-!
The exact table after the removal of empty bodies. The variants of a body are what is left of it
when any of its nullable occurrences are dropped, so the new bodies of a head are the non-empty
variants of its old ones. Only a goal that derives the empty chain gets more than that.
-/

namespace FormalLanguages

open Grammar

/-! ### Dropping occurrences -/

namespace Body

/-- The body without its occurrences at some positions. -/
def without (dropped : Nat → Bool) (body : Body) : Body :=
  (body.zipIdx.filter fun occurrence => !dropped occurrence.2).map Prod.fst

/-- Every dropped position holds a name that may be dropped. -/
def DropsOnly (droppable : String → Prop) (dropped : Nat → Bool) (body : Body) : Prop :=
  ∀ i, dropped i = true → ∃ name, body[i]? = some (.nonTerminal name) ∧ droppable name

/-- What is left of the body when some occurrences of droppable names are dropped. -/
def Shortens (droppable : String → Prop) (body variant : Body) : Prop :=
  ∃ dropped, body.DropsOnly droppable dropped ∧ body.without dropped = variant

variable {droppable : String → Prop} {dropped : Nat → Bool} {symbol : Symbol} {body variant : Body}

theorem without_cons : without dropped (symbol :: body) =
    if dropped 0 = true then without (fun i => dropped (i + 1)) body
    else symbol :: without (fun i => dropped (i + 1)) body := by
  have hrest : ((body.zipIdx 1).filter fun occurrence => !dropped occurrence.2).map Prod.fst =
      without (fun i => dropped (i + 1)) body := by
    rw [List.zipIdx_succ, List.filter_map, List.map_map]
    rfl
  simp only [without, List.zipIdx_cons, List.filter_cons] at hrest ⊢
  cases dropped 0 <;> simp [hrest]

theorem dropsOnly_cons_iff : DropsOnly droppable dropped (symbol :: body) ↔
    (dropped 0 = true → ∃ name, symbol = .nonTerminal name ∧ droppable name) ∧
      DropsOnly droppable (fun i => dropped (i + 1)) body := by
  constructor
  · intro h
    exact ⟨fun hfirst => by simpa using h 0 hfirst, fun i hi => by simpa using h (i + 1) hi⟩
  · rintro ⟨hfirst, hrest⟩ i hi
    cases i with
    | zero => simpa using hfirst hi
    | succ i => simpa using hrest i hi

theorem shortens_nil_iff : Shortens droppable [] variant ↔ variant = [] := by
  constructor
  · rintro ⟨dropped, -, rfl⟩
    rfl
  · rintro rfl
    exact ⟨fun _ => false, by simp [DropsOnly], rfl⟩

/-- The first occurrence is kept or, if it is a droppable name, dropped. -/
theorem shortens_cons_iff : Shortens droppable (symbol :: body) variant ↔
    (∃ rest, body.Shortens droppable rest ∧ symbol :: rest = variant) ∨
      (∃ name, symbol = .nonTerminal name ∧ droppable name) ∧ body.Shortens droppable variant := by
  constructor
  · rintro ⟨dropped, hdropped, rfl⟩
    obtain ⟨hfirst, hrest⟩ := dropsOnly_cons_iff.mp hdropped
    rw [without_cons]
    split
    · exact .inr ⟨hfirst ‹_›, _, hrest, rfl⟩
    · exact .inl ⟨_, ⟨_, hrest, rfl⟩, rfl⟩
  · rintro (⟨rest, ⟨dropped, hdropped, rfl⟩, rfl⟩ | ⟨hfirst, dropped, hdropped, rfl⟩)
    -- the positions of the rest move up by one, and the first one is kept or dropped
    · refine ⟨fun i => i != 0 && dropped (i - 1), ?_, ?_⟩
      · exact dropsOnly_cons_iff.mpr ⟨fun h => by simp at h, by simpa using hdropped⟩
      · rw [without_cons]
        simp
    · refine ⟨fun i => i == 0 || dropped (i - 1), ?_, ?_⟩
      · exact dropsOnly_cons_iff.mpr ⟨fun _ => hfirst, by simpa using hdropped⟩
      · rw [without_cons]
        simp

end Body

/-- The variants are what dropping nullable occurrences leaves. -/
theorem mem_variants_iff {nullable : Std.ExtTreeSet String} {body variant : Body} :
    variant ∈ variants nullable body ↔ body.Shortens (· ∈ nullable) variant := by
  induction body generalizing variant with
  | nil => rw [variants, List.mem_singleton, Body.shortens_nil_iff]
  | cons symbol body ih =>
      rw [Body.shortens_cons_iff]
      cases symbol with
      | terminal c => simp [variants, ih]
      | nonTerminal name =>
          rw [variants, List.mem_append, List.mem_map]
          by_cases hname : name ∈ nullable <;> simp [hname, ih]

namespace RuleTable

variable {rules : RuleTable}

/-- A non-empty body that is left of some body of the head when some occurrences of names that
derive the empty chain are dropped. Only the head itself leaves the head itself. -/
def HasVariant (rules : RuleTable) (head : String) (variant : Body) : Prop :=
  ∃ body : Body, ⟨head, body⟩ ∈ rules ∧ body ≠ [] ∧ body.Shortens (rules.Derives · []) variant ∧
    variant ≠ [] ∧ (variant = [.nonTerminal head] → body = [.nonTerminal head])

theorem mem_withoutLambda_iff_hasVariant {head : String} {variant : Body} :
    ⟨head, variant⟩ ∈ rules.withoutLambda ↔ rules.HasVariant head variant := by
  simp only [mem_withoutLambda, mem_variants_iff, mem_nullable_iff, HasVariant]
  refine exists_congr fun body => and_congr_right fun _ => ?_
  constructor
  · rintro ⟨hshortens, hne, hself⟩
    refine ⟨?_, hshortens, hne, fun hhead => ?_⟩
    · rintro rfl
      exact hne (Body.shortens_nil_iff.mp hshortens)
    · rcases hself with rfl | hself
      · exact hhead
      · exact absurd hhead hself
  · rintro ⟨-, hshortens, hne, hself⟩
    refine ⟨hshortens, hne, ?_⟩
    by_cases hhead : variant = [.nonTerminal head]
    · exact .inl (hhead.trans (hself hhead).symm)
    · exact .inr hhead

-- dropping `A` would leave the head itself
example : withoutNullable (.ofList ["A"]) ⟨"S", [.nonTerminal "S", .nonTerminal "A"]⟩ =
    [⟨"S", [.nonTerminal "S", .nonTerminal "A"]⟩] := by decide +kernel

theorem exists_mem_withoutLambda_iff {goal : String} :
    (∃ rule ∈ rules.withoutLambda, .nonTerminal goal ∈ rule.body) ↔
      ∃ head variant, rules.HasVariant head variant ∧ .nonTerminal goal ∈ variant := by
  simp only [← mem_withoutLambda_iff_hasVariant]
  constructor
  · rintro ⟨⟨head, variant⟩, hrule, hgoal⟩
    exact ⟨head, variant, hrule, hgoal⟩
  · rintro ⟨head, variant, hrule, hgoal⟩
    exact ⟨⟨head, variant⟩, hrule, hgoal⟩

end RuleTable

namespace Grammar.Draft

open RuleTable

variable {d : Draft} {goal : String}

/-- What the removal of empty bodies leaves of a draft. -/
structure IsLambdaFreeOf (d' d : Draft) (goal : String) : Prop where
  terminals_eq : d'.terminals = d.terminals
  /-- Unless the goal derives the empty chain, all that changes is that each head has its
  variants. -/
  not_nullable : ¬ d.book.rules.Derives goal [] →
    d'.nonTerminals = d.nonTerminals ∧ d'.goal = d.goal ∧ d'.book.Lists d.book.rules.HasVariant
  /-- A goal that derives the empty chain and occurs in a variant is the body of a fresh goal. -/
  referenced : d.book.rules.Derives goal [] →
    (∃ head variant, d.book.rules.HasVariant head variant ∧ .nonTerminal goal ∈ variant) →
      ∃ fresh, fresh ∉ d.nonTerminals ∧ d'.nonTerminals = d.nonTerminals.insert fresh ∧
        d'.goal = some fresh ∧ d'.book.Lists fun head body =>
          if head = fresh then body = [] ∨ body = [.nonTerminal goal]
          else d.book.rules.HasVariant head body
  /-- A goal that derives the empty chain and occurs in no variant gets the empty body. -/
  unreferenced : d.book.rules.Derives goal [] →
    (∀ head variant, d.book.rules.HasVariant head variant → .nonTerminal goal ∉ variant) →
      d'.nonTerminals = d.nonTerminals ∧ d'.goal = d.goal ∧ d'.book.Lists fun head body =>
        d.book.rules.HasVariant head body ∨ head = goal ∧ body = []

theorem isLambdaFreeOf_removeLambda (hd : d.grammar.Closed) (hheads : d.HeadsDeclared) :
    (d.removeLambda goal).IsLambdaFreeOf d goal := by
  have hgrammar := grammar_removeLambda hheads goal
  have hlists {rules : RuleTable} {has : String → Body → Prop}
      (hrules : (d.removeLambda goal).grammar.rules = rules)
      (h : ∀ head body, ⟨head, body⟩ ∈ rules ↔ has head body) :
      (d.removeLambda goal).book.Lists has :=
    (tidy_removeLambda goal d).lists (by rwa [← grammar_rules, hrules])
  rcases removeLambda_cases goal d.grammar with
    ⟨hnot, heq⟩ | ⟨hnullable, hreferenced, fresh, hfresh, heq⟩ | ⟨hnullable, hfree, heq⟩
  all_goals rw [heq] at hgrammar
  · refine ⟨congrArg Grammar.terminals hgrammar, fun _ => ⟨?_, ?_, ?_⟩,
      fun hnullable => absurd hnullable hnot, fun hnullable => absurd hnullable hnot⟩
    · exact congrArg Grammar.nonTerminals hgrammar
    · exact congrArg Grammar.goal hgrammar
    · exact hlists (congrArg Grammar.rules hgrammar) fun _ _ => mem_withoutLambda_iff_hasVariant
  · obtain ⟨head, variant, hvariant, hgoal⟩ := exists_mem_withoutLambda_iff.mp hreferenced
    -- the fresh name has no body among the variants
    have hhead (body : Body) : ⟨fresh, body⟩ ∉ d.book.rules.withoutLambda :=
      fun hrule => hfresh (hd.withoutLambda.head _ hrule)
    refine ⟨congrArg Grammar.terminals hgrammar, fun hnot => absurd hnullable hnot,
      fun _ _ => ⟨fresh, hfresh, ?_, ?_, ?_⟩, fun _ hfree => ?_⟩
    · exact congrArg Grammar.nonTerminals hgrammar
    · exact congrArg Grammar.goal hgrammar
    · refine hlists (congrArg Grammar.rules hgrammar) fun head body => ?_
      by_cases hne : head = fresh
      · subst hne
        simp only [mem_insert_rule, Rule.mk.injEq, true_and, grammar_rules, hhead, or_false,
          if_true]
        exact or_comm
      · simp only [mem_insert_rule, Rule.mk.injEq, hne, false_and, false_or, grammar_rules,
          mem_withoutLambda_iff_hasVariant, if_false]
    · exact absurd hgoal (hfree head variant hvariant)
  · refine ⟨congrArg Grammar.terminals hgrammar, fun hnot => absurd hnullable hnot,
      fun _ hvariant => ?_, fun _ _ => ⟨?_, ?_, ?_⟩⟩
    · obtain ⟨rule, hrule, hgoal⟩ := exists_mem_withoutLambda_iff.mpr hvariant
      exact absurd hgoal (hfree rule hrule)
    · exact congrArg Grammar.nonTerminals hgrammar
    · exact congrArg Grammar.goal hgrammar
    · refine hlists (congrArg Grammar.rules hgrammar) fun head body => ?_
      rw [mem_insert_rule, Rule.mk.injEq, mem_withoutLambda_iff_hasVariant]
      exact or_comm

/-- The removal of empty bodies leaves exactly the variants, and adds to them only what a goal that
derives the empty chain needs; a head that is left without a body is gone. This holds for every
draft that arises and any goal, and for the draft that the pass gets on the way to a canonical
form. -/
theorem isLambdaFreeOf_of_arises (hd : d.Arises) :
    (∀ goal, (d.removeLambda goal).IsLambdaFreeOf d goal) ∧
    ∀ goal, d.goal = some goal → (toCanonical.on d).1 = .ok () →
      ((d.removeBarren.removeUnreachable goal).removeLambda goal).IsLambdaFreeOf
        (d.removeBarren.removeUnreachable goal) goal := by
  have hclosed := hd.reachable.closed
  refine ⟨fun goal => ?_, fun goal hgoal htaken => ?_⟩
  · exact isLambdaFreeOf_removeLambda hclosed (headsDeclared_of_closed hclosed hd.tidy)
  · obtain ⟨run, root, h⟩ := exists_run_of_taken hgoal htaken
    refine isLambdaFreeOf_removeLambda ?_ (headsDeclared_removeUnreachable goal _)
    rw [grammar_connected h]
    exact h.closed_connected hclosed

theorem isLambdaFreeOf_nullableGoal : (ofGrammar nullableGoal).Arises ∧
    (∀ goal, ((ofGrammar nullableGoal).removeLambda goal).IsLambdaFreeOf
      (ofGrammar nullableGoal) goal) ∧
    (toCanonical.on (ofGrammar nullableGoal)).1 = .ok () ∧
    (((ofGrammar nullableGoal).removeBarren.removeUnreachable "S").removeLambda
      "S").IsLambdaFreeOf ((ofGrammar nullableGoal).removeBarren.removeUnreachable "S") "S" := by
  have harises := arises_ofGrammar reachable_nullableGoal
  obtain ⟨hpass, hruns⟩ := isLambdaFreeOf_of_arises harises
  obtain ⟨g, hg⟩ := exists_toCanonical_nullableGoal
  have htaken := on_toCanonical_ofGrammar hg
  refine ⟨harises, hpass, htaken, hruns "S" ?_ htaken⟩
  decide +kernel

end Grammar.Draft

end FormalLanguages
