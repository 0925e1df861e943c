import FormalLanguages.Grammar.Canonical
import FormalLanguages.Proofs.ClosedGrammar
import FormalLanguages.Proofs.SymbolSets

/-!
The removal of empty bodies. The variants of a body stand for its non-empty chains, so that the
table of all variants derives exactly the non-empty chains of every name. A goal that derives the
empty chain gets it back at a root, a name that no body refers to.
-/

namespace FormalLanguages

open Grammar

/-! ### Variants -/

/-- A variant drops symbols and adds none. -/
theorem sublist_of_mem_variants {nullable : Std.ExtTreeSet String} {body variant : Body}
    (h : variant ∈ variants nullable body) : variant.Sublist body := by
  induction body generalizing variant with
  | nil =>
      obtain rfl := List.mem_singleton.mp h
      exact .slnil
  | cons symbol body ih =>
      cases symbol with
      | terminal c =>
          obtain ⟨rest, hrest, rfl⟩ := List.mem_map.mp h
          exact (ih hrest).cons_cons _
      | nonTerminal name =>
          rcases List.mem_append.mp h with h | h
          · obtain ⟨rest, hrest, rfl⟩ := List.mem_map.mp h
            exact (ih hrest).cons_cons _
          · split at h
            · exact (ih h).cons _
            · exact absurd h List.not_mem_nil

namespace Body.Reads

variable {I J : Interpretation} {nullable : Std.ExtTreeSet String}

/-- The chains of a variant are chains of the body when the dropped names stand for nothing. -/
theorem of_mem_variants (hnullable : ∀ name ∈ nullable, I name []) {body variant : Body}
    (hvariant : variant ∈ variants nullable body) {chain : List Char} (h : variant.Reads I chain) :
    body.Reads I chain := by
  induction body generalizing variant chain with
  | nil =>
      obtain rfl := List.mem_singleton.mp hvariant
      exact h
  | cons symbol body ih =>
      cases symbol with
      | terminal c =>
          obtain ⟨rest, hrest, rfl⟩ := List.mem_map.mp hvariant
          obtain ⟨chain, rfl, hchain⟩ := h
          exact ⟨chain, rfl, ih hrest hchain⟩
      | nonTerminal name =>
          rcases List.mem_append.mp hvariant with hkept | hdropped
          · obtain ⟨rest, hrest, rfl⟩ := List.mem_map.mp hkept
            obtain ⟨first, last, rfl, hfirst, hlast⟩ := h
            exact ⟨first, last, rfl, hfirst, ih hrest hlast⟩
          · split at hdropped
            · exact ⟨[], chain, rfl, hnullable name ‹_›, ih hdropped h⟩
            · exact absurd hdropped List.not_mem_nil

/-- Some variant reads the chain of a body without any empty part. -/
theorem exists_variant {body : Body} {chain : List Char}
    (h : body.Reads (fun name part => if part = [] then name ∈ nullable else J name part) chain) :
    ∃ variant ∈ variants nullable body, variant.Reads J chain := by
  induction body generalizing chain with
  | nil => exact ⟨[], List.mem_singleton_self _, h⟩
  | cons symbol body ih =>
      cases symbol with
      | terminal c =>
          obtain ⟨rest, rfl, hrest⟩ := h
          obtain ⟨variant, hvariant, hreads⟩ := ih hrest
          exact ⟨_, List.mem_map_of_mem hvariant, rest, rfl, hreads⟩
      | nonTerminal name =>
          obtain ⟨first, rest, rfl, hfirst, hrest⟩ := h
          obtain ⟨variant, hvariant, hreads⟩ := ih hrest
          by_cases hempty : first = []
          · subst hempty
            rw [if_pos rfl] at hfirst
            refine ⟨variant, List.mem_append_right _ ?_, hreads⟩
            rwa [if_pos hfirst]
          · rw [if_neg hempty] at hfirst
            exact ⟨_, List.mem_append_left _ (List.mem_map_of_mem hvariant), first, rest, rfl,
              hfirst, hreads⟩

end Body.Reads

namespace RuleTable

variable {rules : RuleTable}

/-! ### The table of variants -/

/-- The variants of all rules. -/
def withoutLambda (rules : RuleTable) : RuleTable :=
  .ofList (rules.toList.flatMap (withoutNullable rules.nullable))

theorem mem_withoutLambda {head : String} {variant : Body} :
    ⟨head, variant⟩ ∈ rules.withoutLambda ↔
      ∃ body, ⟨head, body⟩ ∈ rules ∧ variant ∈ variants rules.nullable body ∧ variant ≠ [] ∧
        (variant = body ∨ variant ≠ [.nonTerminal head]) := by
  simp only [withoutLambda, Std.ExtTreeSet.mem_ofList, List.contains_iff_mem, List.mem_flatMap,
    Std.ExtTreeSet.mem_toList, withoutNullable, List.mem_map, List.mem_filter, Bool.and_eq_true,
    Bool.or_eq_true, Bool.not_eq_true', List.isEmpty_eq_false_iff, decide_eq_true_eq,
    Rule.mk.injEq]
  constructor
  · rintro ⟨⟨head, body⟩, hrule, variant, ⟨hvariant, hne, hself⟩, rfl, rfl⟩
    exact ⟨body, hrule, hvariant, hne, hself⟩
  · rintro ⟨body, hrule, hvariant, hne, hself⟩
    exact ⟨⟨head, body⟩, hrule, variant, ⟨hvariant, hne, hself⟩, rfl, rfl⟩

theorem nil_not_mem_withoutLambda {head : String} : ⟨head, []⟩ ∉ rules.withoutLambda := by
  intro hrule
  obtain ⟨body, -, -, hne, -⟩ := mem_withoutLambda.mp hrule
  exact hne rfl

/-- The table of variants derives the non-empty chains. -/
theorem derives_withoutLambda {name : String} {chain : List Char} :
    rules.withoutLambda.Derives name chain ↔ rules.Derives name chain ∧ chain ≠ [] := by
  constructor
  · refine derives_induction (I := fun name chain => rules.Derives name chain ∧ chain ≠ []) ?_
    intro name variant chain hrule hreads
    obtain ⟨body, hbody, hvariant, hne, -⟩ := mem_withoutLambda.mp hrule
    have hnullable : ∀ other ∈ rules.nullable, rules.Derives other [] :=
      fun other hother => mem_nullable_iff.mp hother
    have hchain : variant.Reads rules.Derives chain := hreads.mono fun _ _ _ h => h.2.1
    refine ⟨derives_of_rule hbody (.of_mem_variants hnullable hvariant hchain), ?_⟩
    have hlength : variant.length ≤ chain.length := hreads.length_le fun _ _ _ h => h.2.2
    have hpos : 0 < variant.length := List.length_pos_iff.mpr hne
    exact List.length_pos_iff.mp (by omega)
  · rintro ⟨h, hne⟩
    refine derives_induction
      (I := fun name chain => chain ≠ [] → rules.withoutLambda.Derives name chain) ?_ h hne
    intro name body chain hrule hreads hne
    have hparts : body.Reads (fun other part =>
        if part = [] then other ∈ rules.nullable else rules.withoutLambda.Derives other part)
        chain := by
      refine hreads.mono fun other _ part hpart => ?_
      split
      · subst part
        exact mem_nullable_iff.mpr hpart.1
      · exact hpart.2 ‹_›
    obtain ⟨variant, hvariant, hchain⟩ := hparts.exists_variant
    -- a variant that is the head itself adds nothing to what it reads
    by_cases hself : variant = [.nonTerminal name]
    · subst hself
      exact Body.Reads.singleton_iff.mp hchain
    · have hvariantNe : variant ≠ [] := by
        rintro rfl
        exact hne hchain
      exact derives_of_rule
        (mem_withoutLambda.mpr ⟨body, hrule, hvariant, hvariantNe, .inr hself⟩) hchain

/-! ### Rules for a root -/

theorem mem_insert_rule {rule other : Rule} :
    other ∈ rules.insert rule ↔ other = rule ∨ other ∈ rules := by
  rw [Std.ExtTreeSet.mem_insert, Std.compare_eq_iff_eq, eq_comm]

/-- The second table has further rules for a name that none of its bodies refers to. -/
structure AddsRoot (rules rules' : RuleTable) (root : String) : Prop where
  subset : ∀ rule ∈ rules, rule ∈ rules'
  added : ∀ rule ∈ rules', rule ∈ rules ∨ rule.head = root
  unreferenced : ∀ rule ∈ rules', .nonTerminal root ∉ rule.body

namespace AddsRoot

variable {rules' : RuleTable} {root : String}

/-- What the other names derive does not change. -/
theorem derives_iff (h : AddsRoot rules rules' root) {name : String} (hname : name ≠ root)
    {chain : List Char} : rules'.Derives name chain ↔ rules.Derives name chain := by
  constructor
  · intro hderives
    refine derives_induction (I := fun name chain => name ≠ root → rules.Derives name chain) ?_
      hderives hname
    intro name body chain hrule hreads hname
    have hold : ⟨name, body⟩ ∈ rules := (h.added _ hrule).resolve_right hname
    refine derives_of_rule hold (hreads.mono fun other hother _ hpart => hpart.2 ?_)
    rintro rfl
    exact h.unreferenced _ hrule hother
  · exact Derives.mono h.subset

theorem derives_root_iff (h : AddsRoot rules rules' root) {chain : List Char} :
    rules'.Derives root chain ↔
      ∃ body, ⟨root, body⟩ ∈ rules' ∧ body.Reads rules.Derives chain := by
  have hnames {body : Body} (hrule : ⟨root, body⟩ ∈ rules') {name : String}
      (hname : .nonTerminal name ∈ body) : name ≠ root := by
    rintro rfl
    exact h.unreferenced _ hrule hname
  rw [RuleTable.derives_iff]
  constructor
  · rintro ⟨body, hrule, hreads⟩
    exact ⟨body, hrule, hreads.mono fun _ hname _ => (h.derives_iff (hnames hrule hname)).mp⟩
  · rintro ⟨body, hrule, hreads⟩
    exact ⟨body, hrule, hreads.mono fun _ hname _ => (h.derives_iff (hnames hrule hname)).mpr⟩

end AddsRoot

variable {goal fresh : String}

/-- The empty body makes a root of a name that no body refers to. -/
theorem addsRoot_self (hfree : ∀ rule ∈ rules, .nonTerminal goal ∉ rule.body) :
    AddsRoot rules (rules.insert ⟨goal, []⟩) goal where
  subset _ hrule := mem_insert_rule.mpr (.inr hrule)
  added _ hrule := (mem_insert_rule.mp hrule).symm.imp_right (congrArg Rule.head)
  unreferenced rule hrule hmem := by
    rcases mem_insert_rule.mp hrule with rfl | hrule
    · exact absurd hmem List.not_mem_nil
    · exact hfree _ hrule hmem

theorem derives_self_iff (hroot : AddsRoot rules (rules.insert ⟨goal, []⟩) goal)
    {chain : List Char} :
    Derives (rules.insert ⟨goal, []⟩) goal chain ↔ chain = [] ∨ rules.Derives goal chain := by
  rw [hroot.derives_root_iff]
  constructor
  · rintro ⟨body, hrule, hreads⟩
    rcases mem_insert_rule.mp hrule with hempty | hrule
    · obtain rfl : body = [] := by simpa using hempty
      exact .inl hreads
    · exact .inr (derives_of_rule hrule hreads)
  · rintro (hempty | hchain)
    · exact ⟨[], mem_insert_rule.mpr (.inl rfl), hempty⟩
    · obtain ⟨body, hrule, hreads⟩ := RuleTable.derives_iff.mp hchain
      exact ⟨body, mem_insert_rule.mpr (.inr hrule), hreads⟩

/-- A name that the rules do not use is a root with the empty body and a chain body. -/
theorem addsRoot_fresh (hfree : ∀ rule ∈ rules, .nonTerminal fresh ∉ rule.body)
    (hne : fresh ≠ goal) :
    AddsRoot rules ((rules.insert ⟨fresh, []⟩).insert ⟨fresh, [.nonTerminal goal]⟩) fresh where
  subset _ hrule := mem_insert_rule.mpr (.inr (mem_insert_rule.mpr (.inr hrule)))
  added _ hrule := by
    rcases mem_insert_rule.mp hrule with rfl | hrule
    · exact .inr rfl
    · exact (mem_insert_rule.mp hrule).symm.imp_right (congrArg Rule.head)
  unreferenced rule hrule hmem := by
    rcases mem_insert_rule.mp hrule with rfl | hrule
    · exact hne (by simpa using hmem)
    · exact (addsRoot_self hfree).unreferenced rule hrule hmem

theorem derives_fresh_iff
    (hroot : AddsRoot rules ((rules.insert ⟨fresh, []⟩).insert ⟨fresh, [.nonTerminal goal]⟩) fresh)
    (hhead : ∀ rule ∈ rules, rule.head ≠ fresh) {chain : List Char} :
    Derives ((rules.insert ⟨fresh, []⟩).insert ⟨fresh, [.nonTerminal goal]⟩) fresh chain ↔
      chain = [] ∨ rules.Derives goal chain := by
  rw [hroot.derives_root_iff]
  constructor
  · rintro ⟨body, hrule, hreads⟩
    rcases mem_insert_rule.mp hrule with hchain | hrule
    · obtain rfl : body = [.nonTerminal goal] := by simpa using hchain
      exact .inr (Body.Reads.singleton_iff.mp hreads)
    · rcases mem_insert_rule.mp hrule with hempty | hrule
      · obtain rfl : body = [] := by simpa using hempty
        exact .inl hreads
      · exact absurd rfl (hhead _ hrule)
  · rintro (hempty | hchain)
    · exact ⟨[], mem_insert_rule.mpr (.inr (mem_insert_rule.mpr (.inl rfl))), hempty⟩
    · exact ⟨[.nonTerminal goal], mem_insert_rule.mpr (.inl rfl),
        Body.Reads.singleton_iff.mpr hchain⟩

end RuleTable

namespace Grammar

open RuleTable

variable {g : Grammar} {goal : String}

/-! ### The pass -/

/-- What the pass does: it lists all variants and, where the goal derives the empty chain, adds
that chain to a fresh goal or to the goal itself. -/
theorem removeLambda_cases (goal : String) (g : Grammar) :
    (¬ g.rules.Derives goal [] ∧
      g.removeLambda goal = { g with rules := g.rules.withoutLambda }) ∨
    (g.rules.Derives goal [] ∧ (∃ rule ∈ g.rules.withoutLambda, .nonTerminal goal ∈ rule.body) ∧
      ∃ fresh, fresh ∉ g.nonTerminals ∧ g.removeLambda goal =
        { g with
          nonTerminals := g.nonTerminals.insert fresh
          goal := some fresh
          rules := (g.rules.withoutLambda.insert ⟨fresh, []⟩).insert
            ⟨fresh, [.nonTerminal goal]⟩ }) ∨
    (g.rules.Derives goal [] ∧ (∀ rule ∈ g.rules.withoutLambda, .nonTerminal goal ∉ rule.body) ∧
      g.removeLambda goal = { g with rules := g.rules.withoutLambda.insert ⟨goal, []⟩ }) := by
  by_cases hnullable : goal ∈ g.rules.nullable
  · have hderives := mem_nullable_iff.mp hnullable
    by_cases hreferenced : ∃ rule ∈ g.rules.withoutLambda, .nonTerminal goal ∈ rule.body
    · have hany : g.rules.withoutLambda.toList.any (fun rule => .nonTerminal goal ∈ rule.body) :=
        by simpa using hreferenced
      have hfresh := (NameSupply.mk g.nonTerminals []).fresh_not_mem_taken (goal ++ "'")
      refine .inr (.inl ⟨hderives, hreferenced, _, hfresh, ?_⟩)
      unfold removeLambda
      rw [withoutLambda] at hany ⊢
      simp only [hnullable, not_true_eq_false, if_false, hany, if_true]
    · have hany : ¬ g.rules.withoutLambda.toList.any
          (fun rule => .nonTerminal goal ∈ rule.body) = true := by simpa using hreferenced
      refine .inr (.inr ⟨hderives, by simpa using hreferenced, ?_⟩)
      unfold removeLambda
      rw [withoutLambda] at hany ⊢
      simp only [hnullable, not_true_eq_false, hany, Bool.false_eq_true, if_false]
  · refine .inl ⟨mt mem_nullable_iff.mpr hnullable, ?_⟩
    unfold removeLambda
    rw [if_pos hnullable]
    rfl

theorem removeLambda_of_not_derives (h : ¬ g.rules.Derives goal []) :
    g.removeLambda goal = { g with rules := g.rules.withoutLambda } := by
  rcases removeLambda_cases goal g with ⟨-, heq⟩ | ⟨hderives, -⟩ | ⟨hderives, -⟩
  · exact heq
  · exact absurd hderives h
  · exact absurd hderives h

/-- The table of variants uses no new symbols. -/
theorem Closed.withoutLambda (hg : g.Closed) :
    { g with rules := g.rules.withoutLambda }.Closed where
  goal := hg.goal
  head rule hrule := by
    obtain ⟨body, hbody, -⟩ := mem_withoutLambda.mp hrule
    exact hg.head ⟨rule.head, body⟩ hbody
  body rule hrule symbol hsymbol := by
    obtain ⟨body, hbody, hvariant, -⟩ := mem_withoutLambda.mp hrule
    exact hg.body ⟨rule.head, body⟩ hbody symbol ((sublist_of_mem_variants hvariant).subset hsymbol)

/-- Where the goal derives the empty chain, a root derives that chain and the variants. -/
theorem exists_root_removeLambda (hg : g.Closed) (hgoal : g.goal = some goal)
    (hnullable : g.rules.Derives goal []) :
    ∃ root, (g.removeLambda goal).goal = some root ∧
      AddsRoot g.rules.withoutLambda (g.removeLambda goal).rules root ∧
      (∀ head, ⟨head, []⟩ ∈ (g.removeLambda goal).rules → head = root) ∧
      ∀ chain, (g.removeLambda goal).rules.Derives root chain ↔
        chain = [] ∨ g.rules.withoutLambda.Derives goal chain := by
  rcases removeLambda_cases goal g with ⟨hnot, -⟩ | ⟨-, -, fresh, hfresh, heq⟩ | ⟨-, hfree, heq⟩
  · exact absurd hnullable hnot
  · have hclosed := hg.withoutLambda
    have hne : fresh ≠ goal := by
      rintro rfl
      exact hfresh (hg.goal _ hgoal)
    have hunused : ∀ rule ∈ g.rules.withoutLambda, .nonTerminal fresh ∉ rule.body :=
      fun rule hrule hmem => hfresh (hclosed.body rule hrule _ hmem)
    have hroot := addsRoot_fresh hunused hne
    rw [heq]
    refine ⟨fresh, rfl, hroot, fun head hrule => ?_, fun chain => ?_⟩
    · simp only [mem_insert_rule, nil_not_mem_withoutLambda, or_false] at hrule
      simpa using hrule
    · refine derives_fresh_iff hroot fun rule hrule => ?_
      exact ne_of_mem_of_not_mem (hclosed.head rule hrule) hfresh
  · have hroot := addsRoot_self hfree
    rw [heq]
    refine ⟨goal, hgoal, hroot, fun head hrule => ?_, fun chain => derives_self_iff hroot⟩
    simp only [mem_insert_rule, nil_not_mem_withoutLambda, or_false] at hrule
    simpa using hrule

/-! ### What the pass keeps -/

/-- The other names derive what they have derived before, the empty chain aside. -/
theorem derives_removeLambda (hg : g.Closed) (hgoal : g.goal = some goal) {name : String}
    (hname : (g.removeLambda goal).goal ≠ some name) {chain : List Char} :
    (g.removeLambda goal).rules.Derives name chain ↔ g.rules.Derives name chain ∧ chain ≠ [] := by
  by_cases hnullable : g.rules.Derives goal []
  · obtain ⟨root, hroot, hadds, -⟩ := exists_root_removeLambda hg hgoal hnullable
    have hne : name ≠ root := by
      rintro rfl
      exact hname hroot
    rw [hadds.derives_iff hne, derives_withoutLambda]
  · rw [removeLambda_of_not_derives hnullable, derives_withoutLambda]

theorem generates_removeLambda (hg : g.Closed) (hgoal : g.goal = some goal) {chain : List Char} :
    (g.removeLambda goal).Generates chain ↔ g.Generates chain := by
  rw [generates_iff hgoal]
  by_cases hnullable : g.rules.Derives goal []
  · obtain ⟨root, hroot, -, -, hderives⟩ := exists_root_removeLambda hg hgoal hnullable
    rw [generates_iff hroot, hderives, derives_withoutLambda]
    constructor
    · rintro (rfl | ⟨hchain, -⟩)
      · exact hnullable
      · exact hchain
    · intro hchain
      by_cases hempty : chain = []
      · exact .inl hempty
      · exact .inr ⟨hchain, hempty⟩
  · have hkept : (g.removeLambda goal).goal = some goal := by
      rw [removeLambda_of_not_derives hnullable]
      exact hgoal
    rw [generates_iff hkept, removeLambda_of_not_derives hnullable, derives_withoutLambda]
    constructor
    · exact And.left
    · intro hchain
      refine ⟨hchain, ?_⟩
      rintro rfl
      exact hnullable hchain

/-- Only the goal has the empty body, and then no body refers to the goal. -/
theorem nil_mem_removeLambda (hg : g.Closed) (hgoal : g.goal = some goal) {head : String}
    (hrule : ⟨head, []⟩ ∈ (g.removeLambda goal).rules) :
    (g.removeLambda goal).goal = some head ∧
      ∀ rule ∈ (g.removeLambda goal).rules, .nonTerminal head ∉ rule.body := by
  by_cases hnullable : g.rules.Derives goal []
  · obtain ⟨root, hroot, hadds, hnil, -⟩ := exists_root_removeLambda hg hgoal hnullable
    obtain rfl := hnil head hrule
    exact ⟨hroot, hadds.unreferenced⟩
  · rw [removeLambda_of_not_derives hnullable] at hrule
    exact absurd hrule nil_not_mem_withoutLambda

/-- The only name that the pass makes up is the new goal. -/
theorem mem_removeLambda_nonTerminals {name : String}
    (hname : name ∈ (g.removeLambda goal).nonTerminals) :
    name ∈ g.nonTerminals ∨ (g.removeLambda goal).goal = some name := by
  rcases removeLambda_cases goal g with ⟨-, heq⟩ | ⟨-, -, fresh, -, heq⟩ | ⟨-, -, heq⟩
  · rw [heq] at hname
    exact .inl hname
  · rw [heq] at hname ⊢
    rw [Std.ExtTreeSet.mem_insert, Std.compare_eq_iff_eq] at hname
    exact hname.symm.imp_right (congrArg some)
  · rw [heq] at hname
    exact .inl hname

theorem Closed.removeLambda (hg : g.Closed) (hgoal : g.goal = some goal) :
    (g.removeLambda goal).Closed := by
  have hclosed := hg.withoutLambda
  rcases removeLambda_cases goal g with ⟨-, heq⟩ | ⟨-, -, fresh, -, heq⟩ | ⟨-, -, heq⟩
  · rw [heq]
    exact hclosed
  · -- the declared names stay declared beside the fresh one
    have hold {name : String} (hname : name ∈ g.nonTerminals) :
        name ∈ g.nonTerminals.insert fresh := Std.ExtTreeSet.mem_insert.mpr (.inr hname)
    have hnew : fresh ∈ g.nonTerminals.insert fresh := Std.ExtTreeSet.mem_insert_self
    rw [heq]
    refine ⟨fun name hname => ?_, fun rule hrule => ?_, fun rule hrule symbol hsymbol => ?_⟩
    · obtain rfl := Option.some.inj hname
      exact hnew
    · rcases mem_insert_rule.mp hrule with rfl | hrule
      · exact hnew
      · rcases mem_insert_rule.mp hrule with rfl | hrule
        · exact hnew
        · exact hold (hclosed.head _ hrule)
    · rcases mem_insert_rule.mp hrule with rfl | hrule
      · obtain rfl := List.mem_singleton.mp hsymbol
        exact hold (hg.goal _ hgoal)
      · rcases mem_insert_rule.mp hrule with rfl | hrule
        · exact absurd hsymbol List.not_mem_nil
        · have hdeclared := hclosed.body _ hrule _ hsymbol
          cases symbol with
          | terminal c => exact hdeclared
          | nonTerminal name => exact hold hdeclared
  · rw [heq]
    refine ⟨hg.goal, fun rule hrule => ?_, fun rule hrule symbol hsymbol => ?_⟩
    · rcases mem_insert_rule.mp hrule with rfl | hrule
      · exact hg.goal _ hgoal
      · exact hclosed.head _ hrule
    · rcases mem_insert_rule.mp hrule with rfl | hrule
      · exact absurd hsymbol List.not_mem_nil
      · exact hclosed.body _ hrule _ hsymbol

end Grammar

end FormalLanguages
