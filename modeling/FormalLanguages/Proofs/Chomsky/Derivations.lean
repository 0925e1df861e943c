import FormalLanguages.Proofs.Chomsky.Splitting

/-!
What the Chomsky form derives, and what its rules look like. A new body yields the chains of the old
body that it spells, since every fresh name derives the chains of what it stands for: one direction
goes along a derivation, the other one along the length of the meaning of a role, which splitting
makes shorter.
-/

namespace FormalLanguages.Grammar

open RuleTable

variable {g : Grammar}

namespace Splitting

variable {s : Splitting} {roles : List (Role × String)}

/-- Every symbol of a new body stands for symbols of the old one. -/
theorem Spells.exists_part {body old : Body} (h : Spells g roles body old) {symbol : Symbol}
    (hsymbol : symbol ∈ body) : ∃ part, Stands g roles symbol part ∧ part ⊆ old := by
  induction h with
  | nil => exact absurd hsymbol List.not_mem_nil
  | cons hstands _ ih =>
      rcases List.mem_cons.mp hsymbol with rfl | hsymbol
      · exact ⟨_, hstands, List.subset_append_left ..⟩
      · obtain ⟨part, hpart, hsubset⟩ := ih hsymbol
        exact ⟨part, hpart, fun _ h => List.mem_append_right _ (hsubset h)⟩

/-! ### From new derivations to old ones -/

/-- The chains that a name of the new table has to derive in the old one. -/
def OldChains (g : Grammar) (roles : List (Role × String)) : Interpretation := fun name chain =>
  (name ∈ g.nonTerminals → g.keptRules.Derives name chain) ∧
    ∀ role, (role, name) ∈ roles → role.meaning.Reads g.keptRules.Derives chain

theorem Stands.reads {symbol : Symbol} {part : Body} (h : Stands g roles symbol part)
    {chain : List Char} (hreads : Body.Reads (OldChains g roles) [symbol] chain) :
    part.Reads g.keptRules.Derives chain := by
  cases h with
  | terminal c => exact hreads
  | declared hname =>
      have hname := (Body.Reads.singleton_iff.mp hreads).1 hname
      exact Body.Reads.singleton_iff.mpr hname
  | invented hrole => exact (Body.Reads.singleton_iff.mp hreads).2 _ hrole

theorem Spells.reads {body old : Body} (h : Spells g roles body old) {chain : List Char}
    (hreads : body.Reads (OldChains g roles) chain) : old.Reads g.keptRules.Derives chain := by
  induction h generalizing chain with
  | nil => exact hreads
  | @cons symbol part body rest hsymbol _ ih =>
      have hreads : Body.Reads (OldChains g roles) ([symbol] ++ body) chain := hreads
      obtain ⟨first, last, rfl, hfirst, hlast⟩ := Body.Reads.append_iff.mp hreads
      exact (hsymbol.reads hfirst).append (ih hlast)

theorem Sound.oldChains (hg : g.Closed) (hs : Sound g s) {name : String} {chain : List Char}
    (h : s.rules.Derives name chain) : OldChains g s.roles name chain := by
  refine derives_induction (I := OldChains g s.roles) ?_ h
  intro name body chain hrule hreads
  have hreads : body.Reads (OldChains g s.roles) chain := hreads.mono fun _ _ _ h => h.2
  rcases hs.justified _ hrule with ⟨old, hold, hspells⟩ | ⟨role, hrole, hspells⟩
  · have hderives := derives_of_rule hold (hspells.reads hreads)
    have hdeclared := hg.head _ (mem_keptRules.mp hold).1
    exact ⟨fun _ => hderives, fun role hrole => absurd hdeclared (hs.fresh role name hrole)⟩
  · refine ⟨fun hdeclared => absurd hdeclared (hs.fresh role name hrole), fun other hother => ?_⟩
    obtain rfl := hs.unique other role name hother hrole
    exact hspells.reads hreads

/-! ### From old derivations to new ones -/

/-- A body yields what the body that it spells yields, once its fresh names derive what they
stand for. -/
theorem Spells.yields {body old : Body} (h : Spells g s.roles body old)
    (hnames : ∀ role name, (role, name) ∈ s.roles → .nonTerminal name ∈ body →
      ∀ chain, role.meaning.Reads s.rules.Derives chain → s.rules.Derives name chain)
    {chain : List Char} (hreads : old.Reads s.rules.Derives chain) :
    body.Reads s.rules.Derives chain := by
  induction h generalizing chain with
  | nil => exact hreads
  | @cons symbol part body rest hsymbol _ ih =>
      obtain ⟨first, last, rfl, hfirst, hlast⟩ := Body.Reads.append_iff.mp hreads
      have hbody := ih (fun role name hrole hname =>
        hnames role name hrole (List.mem_cons_of_mem _ hname)) hlast
      show Body.Reads s.rules.Derives ([symbol] ++ body) (first ++ last)
      refine Body.Reads.append ?_ hbody
      cases hsymbol with
      | terminal c => exact hfirst
      | declared hname => exact hfirst
      | invented hrole =>
          exact Body.Reads.singleton_iff.mpr (hnames _ _ hrole List.mem_cons_self _ hfirst)

theorem Stands.ne_nil (hs : Sound g s) {symbol : Symbol} {part : Body}
    (h : Stands g s.roles symbol part) : part ≠ [] := by
  cases h with
  | terminal c => exact List.cons_ne_nil _ _
  | declared hname => exact List.cons_ne_nil _ _
  | invented hrole => exact (hs.fits _ _ hrole).nonempty

/-- The fresh names in a split body have shorter meanings than the body has. -/
theorem Spells.length_meaning_lt (hs : Sound g s) {body old : Body}
    (h : Spells g s.roles body old) (hshape : body.IsSplit) {role : Role} {name : String}
    (hrole : (role, name) ∈ s.roles) (hname : .nonTerminal name ∈ body) :
    role.meaning.length < old.length := by
  rcases hshape with ⟨c, rfl⟩ | ⟨left, right, rfl⟩
  · simp at hname
  · cases h with
    | @cons _ first _ _ hleft h =>
      cases h with
      | @cons _ second _ _ hright h =>
        cases h
        have hfirst := List.length_pos_iff.mpr (hleft.ne_nil hs)
        have hsecond := List.length_pos_iff.mpr (hright.ne_nil hs)
        -- a fresh name stands for the meaning of its role and for nothing else
        have hmeaning {part : Body} (h : Stands g s.roles (.nonTerminal name) part) :
            part = role.meaning := by
          cases h with
          | declared hdeclared => exact absurd hdeclared (hs.fresh role name hrole)
          | @invented other _ hother => rw [hs.unique other role name hother hrole]
        simp only [List.length_append, List.length_nil]
        rcases List.mem_cons.mp hname with heq | hname
        · rw [← heq] at hleft
          rw [hmeaning hleft] at hfirst ⊢
          omega
        · rw [← List.mem_singleton.mp hname] at hright
          rw [hmeaning hright] at hsecond ⊢
          omega

theorem Sound.derives_of_role (hs : Sound g s)
    (hsettled : ∀ role name, (role, name) ∈ s.roles → Settled g s role name) {role : Role}
    {name : String} (hrole : (role, name) ∈ s.roles) {chain : List Char}
    (hreads : role.meaning.Reads s.rules.Derives chain) : s.rules.Derives name chain := by
  induction hlength : role.meaning.length using Nat.strongRecOn generalizing role name chain with
  | ind length ih =>
    subst hlength
    -- the fresh names in the rule of the role have shorter meanings
    obtain ⟨body, hrule, hspells, hshape⟩ := hsettled role name hrole
    refine derives_of_rule hrule (hspells.yields ?_ hreads)
    intro other fresh hother hfresh chain hchain
    exact ih _ (hspells.length_meaning_lt hs hshape hother hfresh) hother hchain rfl

end Splitting

open Splitting

/-- A declared name derives in the Chomsky form what the kept rules derive. -/
theorem derives_toChomsky_iff (hg : g.Closed) {name : String} (hname : name ∈ g.nonTerminals)
    {chain : List Char} :
    g.toChomsky.rules.Derives name chain ↔ g.keptRules.Derives name chain := by
  obtain ⟨s, hs, hsettled, hrepresents, heq⟩ := exists_splitting hg
  rw [heq]
  constructor
  · intro h
    exact (hs.oldChains hg h).1 hname
  · refine derives_induction (I := s.rules.Derives) ?_
    intro head old chain hrule hreads
    obtain ⟨body, hbody, hspells⟩ := hrepresents _ hrule
    refine derives_of_rule hbody (hspells.yields ?_ (hreads.mono fun _ _ _ h => h.2))
    intro role fresh hrole _ chain hchain
    exact hs.derives_of_role hsettled hrole hchain

theorem Closed.toChomsky (hg : g.Closed) : g.toChomsky.Closed := by
  obtain ⟨s, hs, -, -, heq⟩ := exists_splitting hg
  have hdeclared {name : String} :
      name ∈ g.toChomsky.nonTerminals ↔ name ∈ g.nonTerminals ∨ name ∈ s.supply.issued := by
    rw [heq, Std.ExtTreeSet.mem_insertMany_list, List.contains_iff_mem]
  have hissued {role : Role} {name : String} (hrole : (role, name) ∈ s.roles) :
      name ∈ g.toChomsky.nonTerminals :=
    hdeclared.mpr (.inr ((hs.mem_issued name).mpr ⟨role, hrole⟩))
  have hsymbol {body old : Body} (hspells : Spells g s.roles body old)
      (hold : ∀ symbol ∈ old, g.Declares symbol) {symbol : Symbol} (h : symbol ∈ body) :
      g.toChomsky.Declares symbol := by
    obtain ⟨part, hstands, hpart⟩ := hspells.exists_part h
    cases hstands with
    | terminal c =>
        rw [heq]
        exact hold _ (hpart List.mem_cons_self)
    | declared hname => exact hdeclared.mpr (.inl hname)
    | invented hrole => exact hissued hrole
  refine ⟨fun name hname => ?_, fun rule hrule => ?_, fun rule hrule symbol h => ?_⟩
  · rw [heq] at hname
    exact hdeclared.mpr (.inl (hg.goal name hname))
  · rw [heq] at hrule
    rcases hs.justified rule hrule with ⟨old, hold, -⟩ | ⟨role, hrole, -⟩
    · exact hdeclared.mpr (.inl (hg.head ⟨rule.head, old⟩ (mem_keptRules.mp hold).1))
    · exact hissued hrole
  · rw [heq] at hrule
    rcases hs.justified rule hrule with ⟨old, hold, hspells⟩ | ⟨role, hrole, hspells⟩
    · exact hsymbol hspells (hg.body _ (mem_keptRules.mp hold).1) h
    · exact hsymbol hspells (fun symbol hpart => ((hs.fits role _ hrole).used symbol hpart).1) h

/-! ### The shape of the rules -/

/-- The empty body stays with a goal that has it, and all other bodies are split. -/
theorem shape_toChomsky (hg : g.Closed) {rule : Rule} (hrule : rule ∈ g.toChomsky.rules) :
    rule.body.IsSplit ∨
      rule.body = [] ∧ g.goal = some rule.head ∧ ⟨rule.head, []⟩ ∈ g.rules := by
  obtain ⟨s, hs, -, -, heq⟩ := exists_splitting hg
  rw [heq] at hrule
  refine (hs.shape rule hrule).imp_right fun ⟨hnil, hgoal⟩ => ⟨hnil, hgoal, ?_⟩
  have hhead : rule.head ∈ g.nonTerminals := hg.goal _ hgoal
  rcases hs.justified rule hrule with ⟨old, hold, hspells⟩ | ⟨role, hrole, -⟩
  · rw [hnil] at hspells
    cases hspells
    exact (mem_keptRules.mp hold).1
  · exact absurd hhead (hs.fresh role _ hrole)

/-- No body comes to refer to a declared name that no body has referred to. -/
theorem mentions_of_toChomsky (hg : g.Closed) {name : String} (hname : name ∈ g.nonTerminals)
    (h : g.toChomsky.rules.Mentions name) : g.rules.Mentions name := by
  obtain ⟨s, hs, -, -, heq⟩ := exists_splitting hg
  obtain ⟨rule, hrule, hmem⟩ := h
  rw [heq] at hrule
  have hpart {old : Body} (hspells : Spells g s.roles rule.body old) : .nonTerminal name ∈ old := by
    obtain ⟨part, hstands, hsubset⟩ := hspells.exists_part hmem
    cases hstands with
    | declared => exact hsubset List.mem_cons_self
    | invented hrole => exact absurd hname (hs.fresh _ _ hrole)
  rcases hs.justified rule hrule with ⟨old, hold, hspells⟩ | ⟨role, hrole, hspells⟩
  · exact ⟨_, (mem_keptRules.mp hold).1, hpart hspells⟩
  · exact ((hs.fits role _ hrole).used _ (hpart hspells)).2

end FormalLanguages.Grammar
