import FormalLanguages.Proofs.Canonical.Form

/-!
Canonical grammars are what the canonical form leaves as it is. The sweeps find no useless symbol.
In a canonical grammar only the goal can derive the empty chain, and if it does then no body refers
to it; so every other body is its own only variant, and there is no chain body to follow.
-/

namespace FormalLanguages

open Grammar

/-- A body without nullable names has no other variant. -/
theorem variants_eq_singleton {nullable : Std.ExtTreeSet String} {body : Body}
    (h : ∀ name, .nonTerminal name ∈ body → name ∉ nullable) :
    variants nullable body = [body] := by
  induction body with
  | nil => rfl
  | cons symbol body ih =>
      have hbody := ih fun name hname => h name (List.mem_cons_of_mem _ hname)
      cases symbol with
      | terminal c => simp only [variants, hbody, List.map_cons, List.map_nil]
      | nonTerminal name =>
          have hname : name ∉ nullable := h name List.mem_cons_self
          simp only [variants, hbody, hname, if_false, List.map_cons, List.map_nil, List.append_nil]

namespace Grammar

open RuleTable

variable {g g' : Grammar}

theorem eq_of_forall_mem (hterminals : ∀ c, c ∈ g.terminals ↔ c ∈ g'.terminals)
    (hnonTerminals : ∀ name, name ∈ g.nonTerminals ↔ name ∈ g'.nonTerminals)
    (hgoal : g.goal = g'.goal) (hrules : ∀ rule, rule ∈ g.rules ↔ rule ∈ g'.rules) : g = g' := by
  cases g
  cases g'
  rw [Grammar.mk.injEq]
  exact ⟨Std.ExtTreeSet.ext_mem hterminals, Std.ExtTreeSet.ext_mem hnonTerminals, hgoal,
    Std.ExtTreeSet.ext_mem hrules⟩

namespace IsCanonical

variable {goal : String}

theorem goal_mem (h : g.IsCanonical goal) : goal ∈ g.nonTerminals :=
  h.closed.goal goal h.goal_eq

/-! ### The sweeps -/

theorem removeBarren_eq (h : g.IsCanonical goal) : g.removeBarren = g := by
  refine eq_of_forall_mem (fun c => Iff.rfl) (fun name => ?_) rfl fun rule => ?_
  · rw [mem_removeBarren_nonTerminals]
    exact and_iff_left_of_imp (h.derives name)
  · rw [mem_removeBarren_rules h.closed]
    exact and_iff_left_of_imp fun hrule name hname =>
      h.derives name (h.closed.body rule hrule _ hname)

theorem removeUnreachable_eq (h : g.IsCanonical goal) : g.removeUnreachable goal = g := by
  refine eq_of_forall_mem (fun c => ?_) (fun name => ?_) removeUnreachable_goal fun rule => ?_
  · rw [mem_removeUnreachable_terminals]
    exact and_iff_left_of_imp fun hc => occurs_terminal_iff.mpr (h.letter_occurs c hc)
  · rw [mem_removeUnreachable_nonTerminals]
    exact and_iff_left_of_imp (h.occurs name)
  · rw [mem_removeUnreachable_rules h.closed]
    exact and_iff_left_of_imp fun hrule => h.occurs rule.head (h.closed.head rule hrule)

/-! ### Empty bodies -/

/-- Only with an empty body of its own does a name derive the empty chain: a longer body would have
to refer to such a name. -/
theorem nil_mem_of_derives_nil (h : g.IsCanonical goal) {name : String}
    (hname : g.rules.Derives name []) : ⟨name, []⟩ ∈ g.rules := by
  refine derives_induction (I := fun name chain => chain = [] → ⟨name, []⟩ ∈ g.rules) ?_ hname rfl
  rintro name body chain hrule hreads rfl
  match body with
  | [] => exact hrule
  | .terminal c :: body =>
      obtain ⟨rest, hrest, -⟩ := hreads
      exact absurd hrest (List.cons_ne_nil c rest).symm
  | .nonTerminal other :: body =>
      obtain ⟨first, rest, hrest, ⟨-, hother⟩, -⟩ := hreads
      obtain ⟨rfl, hfree⟩ := h.nil_body other (hother (List.append_eq_nil_iff.mp hrest.symm).1)
      exact absurd List.mem_cons_self (hfree _ hrule)

theorem not_mem_nullable (h : g.IsCanonical goal) {rule : Rule} (hrule : rule ∈ g.rules)
    {name : String} (hname : .nonTerminal name ∈ rule.body) : name ∉ g.rules.nullable := by
  intro hnullable
  have hnil := h.nil_mem_of_derives_nil (mem_nullable_iff.mp hnullable)
  obtain ⟨rfl, hfree⟩ := h.nil_body name hnil
  exact hfree rule hrule hname

theorem mem_withoutLambda_iff (h : g.IsCanonical goal) {rule : Rule} :
    rule ∈ g.rules.withoutLambda ↔ rule ∈ g.rules ∧ rule.body ≠ [] := by
  obtain ⟨head, variant⟩ := rule
  have honly {body : Body} (hrule : ⟨head, body⟩ ∈ g.rules) :
      variants g.rules.nullable body = [body] :=
    variants_eq_singleton fun name hname => h.not_mem_nullable hrule hname
  rw [mem_withoutLambda]
  constructor
  · rintro ⟨body, hrule, hvariant, hne, -⟩
    rw [honly hrule, List.mem_singleton] at hvariant
    subst hvariant
    exact ⟨hrule, hne⟩
  · rintro ⟨hrule, hne⟩
    refine ⟨variant, hrule, ?_, hne, .inl rfl⟩
    rw [honly hrule]
    exact List.mem_singleton_self variant

/-- The goal gets its empty body back, and no other rule has been dropped. -/
theorem removeLambda_eq (h : g.IsCanonical goal) : g.removeLambda goal = g := by
  have hnil {rule : Rule} (hrule : rule ∈ g.rules) (hbody : rule.body = []) :
      rule = ⟨goal, []⟩ := by
    obtain ⟨head, body⟩ := rule
    obtain rfl : body = [] := hbody
    rw [(h.nil_body head hrule).1]
  rcases removeLambda_cases goal g with
    ⟨hnot, heq⟩ | ⟨hderives, ⟨rule, hrule, hmem⟩, -⟩ | ⟨hderives, -, heq⟩
  · rw [heq]
    refine eq_of_forall_mem (fun c => Iff.rfl) (fun name => Iff.rfl) rfl fun rule => ?_
    rw [h.mem_withoutLambda_iff]
    refine and_iff_left_of_imp fun hrule hbody => hnot ?_
    rw [hnil hrule hbody] at hrule
    exact derives_of_rule hrule rfl
  · -- a fresh goal would need a body that refers to the old one
    obtain ⟨-, hfree⟩ := h.nil_body goal (h.nil_mem_of_derives_nil hderives)
    exact absurd hmem (hfree rule (h.mem_withoutLambda_iff.mp hrule).1)
  · have hgoal := h.nil_mem_of_derives_nil hderives
    rw [heq]
    refine eq_of_forall_mem (fun c => Iff.rfl) (fun name => Iff.rfl) rfl fun rule => ?_
    rw [mem_insert_rule, h.mem_withoutLambda_iff]
    constructor
    · rintro (rfl | ⟨hrule, -⟩)
      · exact hgoal
      · exact hrule
    · intro hrule
      by_cases hbody : rule.body = []
      · exact .inl (hnil hrule hbody)
      · exact .inr ⟨hrule, hbody⟩

/-! ### Chain bodies -/

theorem removeChains_eq (h : g.IsCanonical goal) : g.removeChains = g := by
  refine eq_of_forall_mem (fun c => Iff.rfl) (fun name => Iff.rfl) rfl fun ⟨head, body⟩ => ?_
  rw [mem_removeChains_rules h.closed]
  constructor
  · rintro ⟨-, name, hpath, hrule⟩
    cases hpath using Relation.ReflTransGen.head_induction_on with
    | refl => exact hrule
    | @head _ next hstep _ => exact absurd rfl (h.no_chain _ hstep next)
  · intro hrule
    refine ⟨?_, head, .refl, hrule⟩
    by_contra hchain
    obtain ⟨name, hbody⟩ := Body.isChain_iff.mp (eq_true_of_ne_false hchain)
    exact h.no_chain _ hrule name hbody

/-! ### All stages -/

theorem canonize_eq (h : g.IsCanonical goal) :
    g.canonize = .ok ⟨g, g, g, g, g⟩ := by
  have hgoal : g.requireGoal = .ok goal := requireGoal_eq_ok.mpr h.goal_eq
  have hgenerating : goal ∈ g.rules.generating :=
    mem_generating_iff.mpr (h.derives goal h.goal_mem)
  simp only [canonize, hgoal, bind, Except.bind, hgenerating, not_true_eq_false, if_false,
    pure, Except.pure, h.removeBarren_eq, h.removeUnreachable_eq, h.removeLambda_eq,
    h.removeChains_eq]

/-- The canonical form of a canonical grammar is this grammar. -/
theorem toCanonical_eq (h : g.IsCanonical goal) : g.toCanonical = .ok g := by
  rw [Grammar.toCanonical, h.canonize_eq]
  rfl

end IsCanonical

/-- The canonical form of a canonical form is again this grammar. -/
theorem toCanonical_idempotent (hg : g.Reachable) (h : g.toCanonical = .ok g') :
    g'.toCanonical = .ok g' := by
  obtain ⟨goal, hcanonical⟩ := hg.closed.isCanonical_toCanonical h
  exact hcanonical.toCanonical_eq

theorem toCanonical_idempotent_nullableGoal :
    nullableGoal.Reachable ∧
      ∃ g, nullableGoal.toCanonical = .ok g ∧ g.toCanonical = .ok g := by
  obtain ⟨g, hg⟩ := exists_toCanonical_nullableGoal
  exact ⟨reachable_nullableGoal, g, hg, toCanonical_idempotent reachable_nullableGoal hg⟩

end Grammar

end FormalLanguages
