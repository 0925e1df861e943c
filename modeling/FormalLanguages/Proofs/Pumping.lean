import FormalLanguages.Proofs.Interpretation
import Mathlib.Tactic.ByContra

/-!
Derivations of least height. A name surrounds another one when chains of the second, put between
two fixed parts, are chains of the first. A name that surrounds itself by parts that are not both
empty derives chains of any length. So where a goal derives short chains only, a derivation of least
height has no name twice on its way down: between the two, the chain would either grow, and could be
made to grow further, or stay the same, and the derivation would be higher than it has to be.
-/

namespace FormalLanguages

/-- Each name of a body has its place in the chain, and other chains fit there as well. -/
theorem Body.Reads.exists_place {I J : Interpretation} {body : Body} {chain : List Char}
    (h : body.Reads I chain) (hIJ : ∀ name part, I name part → J name part) :
    body.Reads (fun name part => I name part ∧ ∃ left right, left ++ part ++ right = chain ∧
      ∀ other, J name other → body.Reads J (left ++ other ++ right)) chain := by
  induction body generalizing chain with
  | nil => exact h
  | cons symbol body ih =>
      cases symbol with
      | terminal c =>
          obtain ⟨rest, rfl, hrest⟩ := h
          refine ⟨rest, rfl, (ih hrest).mono ?_⟩
          rintro name - part ⟨hpart, left, right, rfl, hplace⟩
          exact ⟨hpart, c :: left, right, rfl, fun other hother => ⟨_, rfl, hplace other hother⟩⟩
      | nonTerminal own =>
          obtain ⟨first, rest, rfl, hfirst, hrest⟩ := h
          refine ⟨first, rest, rfl, ⟨hfirst, [], rest, rfl, fun other hother => ?_⟩,
            (ih hrest).mono ?_⟩
          · exact ⟨other, rest, rfl, hother, hrest.mono fun name _ => hIJ name⟩
          · rintro name - part ⟨hpart, left, right, rfl, hplace⟩
            refine ⟨hpart, first ++ left, right, by simp, fun other hother => ?_⟩
            exact ⟨first, left ++ other ++ right, by simp, hIJ own first hfirst,
              hplace other hother⟩

namespace RuleTable

variable {rules : RuleTable} {name goal : String} {chain left right : List Char}

/-! ### Heights -/

/-- The name has a derivation of the chain that is at most so high. -/
def DerivesWithin (rules : RuleTable) : Nat → Interpretation
  | 0 => fun _ _ => False
  | height + 1 => fun name chain =>
      ∃ body, ⟨name, body⟩ ∈ rules ∧ body.Reads (DerivesWithin rules height) chain

theorem DerivesWithin.succ {height : Nat} (h : rules.DerivesWithin height name chain) :
    rules.DerivesWithin (height + 1) name chain := by
  induction height generalizing name chain with
  | zero => exact h.elim
  | succ height ih =>
      obtain ⟨body, hrule, hreads⟩ := h
      exact ⟨body, hrule, hreads.mono fun _ _ _ hpart => ih hpart⟩

theorem DerivesWithin.mono {height height' : Nat} (hle : height ≤ height')
    (h : rules.DerivesWithin height name chain) : rules.DerivesWithin height' name chain := by
  induction hle with
  | refl => exact h
  | step _ ih => exact ih.succ

theorem DerivesWithin.derives {height : Nat} (h : rules.DerivesWithin height name chain) :
    rules.Derives name chain := by
  induction height generalizing name chain with
  | zero => exact h.elim
  | succ height ih =>
      obtain ⟨body, hrule, hreads⟩ := h
      exact derives_of_rule hrule (hreads.mono fun _ _ _ hpart => ih hpart)

/-- The names of one body have a common height. -/
theorem exists_reads_derivesWithin {body : Body}
    (h : body.Reads (fun name chain => ∃ height, rules.DerivesWithin height name chain) chain) :
    ∃ height, body.Reads (rules.DerivesWithin height) chain := by
  induction body generalizing chain with
  | nil => exact ⟨0, h⟩
  | cons symbol body ih =>
      cases symbol with
      | terminal c =>
          obtain ⟨rest, rfl, hrest⟩ := h
          obtain ⟨height, hheight⟩ := ih hrest
          exact ⟨height, rest, rfl, hheight⟩
      | nonTerminal name =>
          obtain ⟨first, rest, rfl, ⟨height, hfirst⟩, hrest⟩ := h
          obtain ⟨height', hheight⟩ := ih hrest
          refine ⟨max height height', first, rest, rfl, hfirst.mono (Nat.le_max_left ..), ?_⟩
          exact hheight.mono fun _ _ _ hpart => hpart.mono (Nat.le_max_right ..)

/-- Every derivation has a height. -/
theorem exists_derivesWithin (h : rules.Derives name chain) :
    ∃ height, rules.DerivesWithin height name chain := by
  refine derives_induction
    (I := fun name chain => ∃ height, rules.DerivesWithin height name chain) ?_ h
  intro name body chain hrule hreads
  obtain ⟨height, hheight⟩ := exists_reads_derivesWithin (hreads.mono fun _ _ _ hpart => hpart.2)
  exact ⟨height + 1, body, hrule, hheight⟩

/-- There is a derivation of least height. -/
theorem DerivesWithin.exists_least {height : Nat} (h : rules.DerivesWithin height name chain) :
    ∃ least < height, rules.DerivesWithin (least + 1) name chain ∧
      ¬ rules.DerivesWithin least name chain := by
  induction height with
  | zero => exact h.elim
  | succ height ih =>
      by_cases hlower : rules.DerivesWithin height name chain
      · obtain ⟨least, hlt, hleast⟩ := ih hlower
        exact ⟨least, Nat.lt_succ_of_lt hlt, hleast⟩
      · exact ⟨height, Nat.lt_succ_self height, h, hlower⟩

/-! ### Names around names -/

/-- Chains of the inner name are chains of the outer one when they are put between the two parts. -/
def Surrounds (rules : RuleTable) (outer inner : String) (left right : List Char) : Prop :=
  ∀ chain, rules.Derives inner chain → rules.Derives outer (left ++ chain ++ right)

theorem Surrounds.refl (rules : RuleTable) (name : String) : rules.Surrounds name name [] [] := by
  intro chain h
  rwa [List.nil_append, List.append_nil]

theorem Surrounds.trans {outer middle inner : String} {left' right' : List Char}
    (h : rules.Surrounds outer middle left right) (h' : rules.Surrounds middle inner left' right') :
    rules.Surrounds outer inner (left ++ left') (right' ++ right) := by
  intro chain hchain
  have houter := h _ (h' chain hchain)
  simpa only [List.append_assoc] using houter

/-- A name that surrounds itself properly derives chains of any length. -/
theorem Surrounds.exists_long (h : rules.Surrounds name name left right)
    (hproper : left ++ right ≠ []) (hchain : rules.Derives name chain) (length : Nat) :
    ∃ long, rules.Derives name long ∧ length ≤ long.length := by
  induction length with
  | zero => exact ⟨chain, hchain, Nat.zero_le _⟩
  | succ length ih =>
      obtain ⟨long, hlong, hle⟩ := ih
      have hpos : 0 < (left ++ right).length := List.length_pos_iff.mpr hproper
      refine ⟨left ++ long ++ right, h long hlong, ?_⟩
      simp only [List.length_append] at hpos ⊢
      omega

/-- Below a goal with short chains only, no name surrounds itself properly. -/
theorem Surrounds.append_eq_nil (h : rules.Surrounds name name left right) {length : Nat}
    (hshort : ∀ chain, rules.Derives goal chain → chain.length ≤ length)
    {before after : List Char} (hgoal : rules.Surrounds goal name before after)
    (hchain : rules.Derives name chain) : left ++ right = [] := by
  by_contra hproper
  obtain ⟨long, hlong, hle⟩ := h.exists_long hproper hchain (length + 1)
  have hbound := hshort _ (hgoal long hlong)
  simp only [List.length_append] at hbound
  omega

/-! ### Ways down -/

/-- The name derives the chain inside a chain of the goal. Every name on the way down surrounds it,
and has no derivation of this height for the chain that comes of it. -/
def Descends (rules : RuleTable) (goal : String) (path : List String) : Interpretation :=
  fun name chain => ∃ height, rules.DerivesWithin height name chain ∧
    (∃ left right, rules.Surrounds goal name left right) ∧
    ∀ outer ∈ path, ∃ left right, rules.Surrounds outer name left right ∧
      ¬ rules.DerivesWithin height outer (left ++ chain ++ right)

theorem descends_goal (h : rules.Derives goal chain) : rules.Descends goal [] goal chain := by
  obtain ⟨height, hheight⟩ := exists_derivesWithin h
  refine ⟨height, hheight, ⟨[], [], .refl rules goal⟩, fun outer houter => ?_⟩
  exact absurd houter List.not_mem_nil

/-- No name comes up again on its way down. -/
theorem Descends.not_mem {length : Nat}
    (hshort : ∀ chain, rules.Derives goal chain → chain.length ≤ length) {path : List String}
    (h : rules.Descends goal path name chain) : name ∉ path := by
  intro hmem
  obtain ⟨height, hheight, ⟨before, after, hgoal⟩, houter⟩ := h
  obtain ⟨left, right, hsurrounds, hhigher⟩ := houter name hmem
  have hparts := hsurrounds.append_eq_nil hshort hgoal hheight.derives
  obtain ⟨rfl, rfl⟩ := List.append_eq_nil_iff.mp hparts
  rw [List.nil_append, List.append_nil] at hhigher
  exact hhigher hheight

/-- A way down goes on below some body of the name. -/
theorem Descends.exists_body {path : List String} (h : rules.Descends goal path name chain) :
    ∃ body, ⟨name, body⟩ ∈ rules ∧ body.Reads (rules.Descends goal (name :: path)) chain := by
  obtain ⟨height, hheight, ⟨before, after, hgoal⟩, houter⟩ := h
  obtain ⟨least, hlt, ⟨body, hrule, hreads⟩, hleast⟩ := hheight.exists_least
  have hplaces := hreads.exists_place fun _ _ => DerivesWithin.derives
  refine ⟨body, hrule, hplaces.mono ?_⟩
  rintro inner - part ⟨hpart, left, right, rfl, hplace⟩
  have hinner : rules.Surrounds name inner left right :=
    fun other hother => derives_of_rule hrule (hplace other hother)
  refine ⟨least, hpart, ⟨_, _, hgoal.trans hinner⟩, fun outer hmem => ?_⟩
  rcases List.mem_cons.mp hmem with rfl | hmem
  · exact ⟨left, right, hinner, hleast⟩
  · obtain ⟨first, last, hsurrounds, hhigher⟩ := houter outer hmem
    refine ⟨_, _, hsurrounds.trans hinner, fun hlow => hhigher ?_⟩
    simpa only [List.append_assoc] using hlow.mono (Nat.le_of_lt hlt)

end RuleTable

end FormalLanguages
