import FormalLanguages.Proofs.Interpretation

/-!
Rule tables in Chomsky form. A body is one terminal or two names; only a name that no body refers
to, as a goal may be, can have the empty body as well. So no other name derives the empty chain.
-/

namespace FormalLanguages

/-- The body is one terminal or two names. -/
def Body.IsSplit (body : Body) : Prop :=
  (∃ c, body = [.terminal c]) ∨ ∃ left right, body = [.nonTerminal left, .nonTerminal right]

theorem Body.IsSplit.reverse {body : Body} (h : body.IsSplit) : Body.IsSplit body.reverse := by
  rcases h with ⟨c, rfl⟩ | ⟨left, right, rfl⟩
  · exact .inl ⟨c, rfl⟩
  · exact .inr ⟨right, left, rfl⟩

theorem Body.IsSplit.length_pos {body : Body} (h : body.IsSplit) : 0 < body.length := by
  rcases h with ⟨c, rfl⟩ | ⟨left, right, rfl⟩
  · exact Nat.one_pos
  · exact Nat.two_pos

namespace RuleTable

/-- Some body refers to the name. -/
def Mentions (rules : RuleTable) (name : String) : Prop :=
  ∃ rule ∈ rules, .nonTerminal name ∈ rule.body

/-- All bodies are split, but for the empty body of a name that no body refers to. -/
def IsChomsky (rules : RuleTable) : Prop :=
  ∀ rule ∈ rules, rule.body.IsSplit ∨ rule.body = [] ∧ ¬ rules.Mentions rule.head

variable {rules : RuleTable}

theorem IsChomsky.isSplit (h : rules.IsChomsky) {name : String} (hname : rules.Mentions name)
    {body : Body} (hrule : ⟨name, body⟩ ∈ rules) : body.IsSplit :=
  (h _ hrule).resolve_right fun hnil => hnil.2 hname

theorem IsChomsky.ne_nil (h : rules.IsChomsky) {name : String} (hname : rules.Mentions name)
    {chain : List Char} (hderives : rules.Derives name chain) : chain ≠ [] := by
  revert hname
  refine derives_induction (I := fun name chain => rules.Mentions name → chain ≠ []) ?_ hderives
  intro name body chain hrule hreads hname
  rcases h.isSplit hname hrule with ⟨c, rfl⟩ | ⟨left, right, rfl⟩
  · obtain ⟨rest, rfl, -⟩ := hreads
    exact List.cons_ne_nil _ _
  · obtain ⟨first, rest, rfl, ⟨-, hfirst⟩, -⟩ := hreads
    exact List.append_ne_nil_of_left_ne_nil (hfirst ⟨_, hrule, List.mem_cons_self⟩) rest

end RuleTable

end FormalLanguages
