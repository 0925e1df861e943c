import FormalLanguages.Derivation

/-!
Rule tables as equations between languages. An interpretation gives every name some chains, and a
body then stands for the chains that its symbols spell one after the other. What a rule table
derives is the least interpretation that its rules allow, so a property of all derivations is
proved by showing it for one rule at a time.
-/

namespace FormalLanguages

/-- The chains that each name stands for. -/
abbrev Interpretation := String → List Char → Prop

/-- The body stands for the chain once its names are interpreted. -/
def Body.Reads (I : Interpretation) : Body → List Char → Prop
  | [], chain => chain = []
  | .terminal c :: body, chain => ∃ rest, chain = c :: rest ∧ Body.Reads I body rest
  | .nonTerminal name :: body, chain =>
      ∃ first rest, chain = first ++ rest ∧ I name first ∧ Body.Reads I body rest

namespace Body.Reads

variable {I J : Interpretation}

theorem nil_iff {chain : List Char} : Body.Reads I [] chain ↔ chain = [] := Iff.rfl

theorem singleton_iff {name : String} {chain : List Char} :
    Body.Reads I [.nonTerminal name] chain ↔ I name chain := by
  simp [Body.Reads]

theorem terminal {c : Char} : Body.Reads I [.terminal c] [c] :=
  ⟨[], rfl, rfl⟩

theorem terminals (chain : List Char) : Body.Reads I (chain.map .terminal) chain := by
  induction chain with
  | nil => exact rfl
  | cons c chain ih => exact ⟨chain, rfl, ih⟩

theorem append {left right : Body} {first second : List Char} (hleft : left.Reads I first)
    (hright : right.Reads I second) : (left ++ right).Reads I (first ++ second) := by
  induction left generalizing first with
  | nil =>
      obtain rfl := nil_iff.mp hleft
      exact hright
  | cons symbol left ih =>
      cases symbol with
      | terminal c =>
          obtain ⟨rest, rfl, hrest⟩ := hleft
          exact ⟨rest ++ second, rfl, ih hrest⟩
      | nonTerminal name =>
          obtain ⟨start, rest, rfl, hstart, hrest⟩ := hleft
          exact ⟨start, rest ++ second, List.append_assoc .., hstart, ih hrest⟩

theorem append_iff {left right : Body} {chain : List Char} :
    (left ++ right).Reads I chain ↔
      ∃ first second, chain = first ++ second ∧ left.Reads I first ∧ right.Reads I second := by
  constructor
  · intro h
    induction left generalizing chain with
    | nil => exact ⟨[], chain, rfl, rfl, h⟩
    | cons symbol left ih =>
        cases symbol with
        | terminal c =>
            obtain ⟨rest, rfl, hrest⟩ := h
            obtain ⟨first, second, rfl, hfirst, hsecond⟩ := ih hrest
            exact ⟨c :: first, second, rfl, ⟨first, rfl, hfirst⟩, hsecond⟩
        | nonTerminal name =>
            obtain ⟨start, rest, rfl, hstart, hrest⟩ := h
            obtain ⟨first, second, rfl, hfirst, hsecond⟩ := ih hrest
            exact ⟨start ++ first, second, (List.append_assoc ..).symm,
              ⟨start, first, rfl, hstart, hfirst⟩, hsecond⟩
  · rintro ⟨first, second, rfl, hfirst, hsecond⟩
    exact hfirst.append hsecond

/-- Only the names of the body matter. -/
theorem mono {body : Body} {chain : List Char} (h : body.Reads I chain)
    (hIJ : ∀ name, .nonTerminal name ∈ body → ∀ chain, I name chain → J name chain) :
    body.Reads J chain := by
  induction body generalizing chain with
  | nil => exact h
  | cons symbol body ih =>
      have htail : ∀ name, .nonTerminal name ∈ body → ∀ chain, I name chain → J name chain :=
        fun name hname => hIJ name (List.mem_cons_of_mem _ hname)
      cases symbol with
      | terminal c =>
          obtain ⟨rest, rfl, hrest⟩ := h
          exact ⟨rest, rfl, ih hrest htail⟩
      | nonTerminal name =>
          obtain ⟨first, rest, rfl, hfirst, hrest⟩ := h
          exact ⟨first, rest, rfl, hIJ name List.mem_cons_self first hfirst, ih hrest htail⟩

/-- Every name of the body stands for some chain. -/
theorem exists_of_mem {body : Body} {chain : List Char} (h : body.Reads I chain) {name : String}
    (hname : .nonTerminal name ∈ body) : ∃ part, I name part := by
  obtain ⟨before, after, rfl⟩ := List.append_of_mem hname
  obtain ⟨first, second, rfl, -, hsecond⟩ := append_iff.mp h
  obtain ⟨part, rest, rfl, hpart, -⟩ := hsecond
  exact ⟨part, hpart⟩

/-- A body of names that stand for something stands for something. -/
theorem exists_of_forall {body : Body}
    (h : ∀ name, .nonTerminal name ∈ body → ∃ part, I name part) :
    ∃ chain, body.Reads I chain := by
  induction body with
  | nil => exact ⟨[], rfl⟩
  | cons symbol body ih =>
      obtain ⟨rest, hrest⟩ := ih fun name hname => h name (List.mem_cons_of_mem _ hname)
      cases symbol with
      | terminal c => exact ⟨c :: rest, rest, rfl, hrest⟩
      | nonTerminal name =>
          obtain ⟨part, hpart⟩ := h name List.mem_cons_self
          exact ⟨part ++ rest, part, rest, rfl, hpart, hrest⟩

/-- Where no name stands for the empty chain, a body is no longer than its chains. -/
theorem length_le {body : Body} {chain : List Char} (h : body.Reads I chain)
    (hI : ∀ name, .nonTerminal name ∈ body → ∀ part, I name part → part ≠ []) :
    body.length ≤ chain.length := by
  induction body generalizing chain with
  | nil => exact Nat.zero_le _
  | cons symbol body ih =>
      have htail : ∀ name, .nonTerminal name ∈ body → ∀ part, I name part → part ≠ [] :=
        fun name hname => hI name (List.mem_cons_of_mem _ hname)
      cases symbol with
      | terminal c =>
          obtain ⟨rest, rfl, hrest⟩ := h
          have := ih hrest htail
          simpa using this
      | nonTerminal name =>
          obtain ⟨first, rest, rfl, hfirst, hrest⟩ := h
          have hne : first ≠ [] := hI name List.mem_cons_self first hfirst
          have hpos : 0 < first.length := List.length_pos_iff.mpr hne
          have := ih hrest htail
          simp only [List.length_cons, List.length_append]
          omega

end Body.Reads

namespace RuleTable

variable {rules : RuleTable}

/-- Derivations read every name as what it derives. -/
theorem yields_iff_reads {body : Body} {chain : List Char} :
    rules.Yields body chain ↔ body.Reads rules.Derives chain := by
  induction body generalizing chain with
  | nil => rw [Yields.nil_iff, Body.Reads.nil_iff]
  | cons symbol body ih =>
      cases symbol with
      | terminal c => simp only [Yields.terminal_iff, Body.Reads, ih]
      | nonTerminal name => simp only [Yields.nonTerminal_iff, Body.Reads, ih]

theorem derives_iff {name : String} {chain : List Char} :
    rules.Derives name chain ↔
      ∃ body, ⟨name, body⟩ ∈ rules ∧ body.Reads rules.Derives chain := by
  simp only [Derives, yields_iff_reads]

theorem derives_of_rule {name : String} {body : Body} {chain : List Char}
    (hrule : ⟨name, body⟩ ∈ rules) (h : body.Reads rules.Derives chain) :
    rules.Derives name chain :=
  derives_iff.mpr ⟨body, hrule, h⟩

/-- What every rule passes on from the names of its body to its head holds of all derivations. -/
theorem derives_induction {I : Interpretation}
    (hstep : ∀ name body chain, ⟨name, body⟩ ∈ rules →
      body.Reads (fun name chain => rules.Derives name chain ∧ I name chain) chain →
      I name chain)
    {name : String} {chain : List Char} (h : rules.Derives name chain) : I name chain := by
  -- along the yields of a body each of its names comes with what the rule for it passes on
  have hyields : ∀ {body : Body} {chain : List Char}, rules.Yields body chain →
      body.Reads (fun name chain => rules.Derives name chain ∧ I name chain) chain := by
    intro body chain hbody
    induction hbody with
    | nil => exact rfl
    | terminal _ ih => exact ⟨_, rfl, ih⟩
    | nonTerminal hrule hchain _ ihchain ihrest =>
        exact ⟨_, _, rfl, ⟨⟨_, hrule, hchain⟩, hstep _ _ _ hrule ihchain⟩, ihrest⟩
  obtain ⟨body, hrule, hbody⟩ := h
  exact hstep name body chain hrule (hyields hbody)

/-- More rules derive more chains. -/
theorem Derives.mono {rules' : RuleTable} (hsubset : ∀ rule ∈ rules, rule ∈ rules')
    {name : String} {chain : List Char} (h : rules.Derives name chain) :
    rules'.Derives name chain := by
  obtain ⟨body, hrule, hbody⟩ := h
  exact ⟨body, hsubset _ hrule, hbody.mono hsubset⟩

end RuleTable

end FormalLanguages
