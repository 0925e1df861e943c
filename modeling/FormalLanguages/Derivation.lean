import FormalLanguages.Symbol

/-!
What rule tables derive. A body yields a chain when its terminals stand in the chain as they are
and each of its non-terminals stands for a chain that one of its bodies yields. A body of two parts
yields exactly the chains of two such parts.
-/

namespace FormalLanguages.RuleTable

inductive Yields (rules : RuleTable) : Body → List Char → Prop where
  | nil : Yields rules [] []
  | terminal {c : Char} {body : Body} {rest : List Char}
      (hrest : Yields rules body rest) : Yields rules (.terminal c :: body) (c :: rest)
  | nonTerminal {name : String} {expansion body : Body} {chain rest : List Char}
      (hrule : ⟨name, expansion⟩ ∈ rules) (hchain : Yields rules expansion chain)
      (hrest : Yields rules body rest) : Yields rules (.nonTerminal name :: body) (chain ++ rest)

/-- Whether a name derives a chain. -/
def Derives (rules : RuleTable) (name : String) (chain : List Char) : Prop :=
  ∃ body, ⟨name, body⟩ ∈ rules ∧ rules.Yields body chain

namespace Yields

variable {rules : RuleTable}

theorem nil_iff {chain : List Char} : rules.Yields [] chain ↔ chain = [] := by
  constructor
  · intro h
    cases h
    rfl
  · rintro rfl
    exact .nil

theorem terminal_iff {c : Char} {body : Body} {chain : List Char} :
    rules.Yields (.terminal c :: body) chain ↔
      ∃ rest, chain = c :: rest ∧ rules.Yields body rest := by
  constructor
  · intro h
    cases h with
    | terminal hrest => exact ⟨_, rfl, hrest⟩
  · rintro ⟨rest, rfl, hrest⟩
    exact .terminal hrest

theorem nonTerminal_iff {name : String} {body : Body} {chain : List Char} :
    rules.Yields (.nonTerminal name :: body) chain ↔
      ∃ first rest, chain = first ++ rest ∧ rules.Derives name first ∧ rules.Yields body rest := by
  constructor
  · intro h
    cases h with
    | nonTerminal hrule hchain hrest => exact ⟨_, _, rfl, ⟨_, hrule, hchain⟩, hrest⟩
  · rintro ⟨first, rest, rfl, ⟨_, hrule, hchain⟩, hrest⟩
    exact .nonTerminal hrule hchain hrest

theorem append {left right : Body} {first second : List Char} (hleft : rules.Yields left first)
    (hright : rules.Yields right second) : rules.Yields (left ++ right) (first ++ second) := by
  induction hleft with
  | nil => exact hright
  | terminal _ ih => exact .terminal ih
  | nonTerminal hrule hchain _ _ ih =>
      rw [List.append_assoc]
      exact .nonTerminal hrule hchain ih

theorem append_iff {left right : Body} {chain : List Char} :
    rules.Yields (left ++ right) chain ↔
      ∃ first second, chain = first ++ second ∧ rules.Yields left first ∧
        rules.Yields right second := by
  constructor
  · intro h
    induction left generalizing chain with
    | nil => exact ⟨[], chain, rfl, .nil, h⟩
    | cons symbol left ih =>
        rw [List.cons_append] at h
        cases h with
        | terminal hrest =>
            obtain ⟨first, second, rfl, hfirst, hsecond⟩ := ih hrest
            exact ⟨_, second, rfl, .terminal hfirst, hsecond⟩
        | nonTerminal hrule hchain hrest =>
            obtain ⟨first, second, rfl, hfirst, hsecond⟩ := ih hrest
            exact ⟨_, second, (List.append_assoc ..).symm, .nonTerminal hrule hchain hfirst,
              hsecond⟩
  · rintro ⟨first, second, rfl, hfirst, hsecond⟩
    exact hfirst.append hsecond

/-- More rules derive more chains. -/
theorem mono {rules' : RuleTable} (hsubset : ∀ rule ∈ rules, rule ∈ rules') {body : Body}
    {chain : List Char} (h : rules.Yields body chain) : rules'.Yields body chain := by
  induction h with
  | nil => exact .nil
  | terminal _ ih => exact .terminal ih
  | nonTerminal hrule _ _ ihchain ihrest => exact .nonTerminal (hsubset _ hrule) ihchain ihrest

end Yields

end FormalLanguages.RuleTable
