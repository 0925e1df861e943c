import FormalLanguages.Lexeme
import FormalLanguages.Shrinking
import Std.Data.ExtTreeSet

/-!
Fresh names for non-terminals. A name is made from a base text by replacing the characters that no
name may have and by adding primes until it is free.
-/

namespace FormalLanguages

/-- The base with an underscore for every reserved or separating character. -/
def sanitize (base : String) : String :=
  String.ofList (base.toList.map fun c => if isReserved c || isNameSeparator c then '_' else c)

/-- The name with the fewest primes that is not taken. -/
def primeUntilFree (taken : Std.ExtTreeSet String) (name : String) : String :=
  if name ∈ taken then primeUntilFree taken (name ++ "'") else name
termination_by (taken.toList.filter (name.length ≤ ·.length)).length
decreasing_by
  rename_i htaken
  refine length_filter_lt (Std.ExtTreeSet.mem_toList.mpr htaken) ?_ ?_ ?_
  · intro other _ hlong
    simp only [String.length_append, decide_eq_true_eq] at hlong ⊢
    omega
  · have hprime : "'".length = 1 := rfl
    simp [String.length_append, hprime]
  · simp

theorem primeUntilFree_not_mem (taken : Std.ExtTreeSet String) (name : String) :
    primeUntilFree taken name ∉ taken := by
  fun_induction primeUntilFree taken name with
  | case1 name htaken ih => exact ih
  | case2 name hfree => exact hfree

/-- The names in use and, in order, those that were made up. -/
structure NameSupply where
  taken : Std.ExtTreeSet String
  issued : List String := []

namespace NameSupply

/-- A name that is not in use, and the supply with this name in use. -/
def fresh (base : String) (supply : NameSupply) : String × NameSupply :=
  let name := primeUntilFree supply.taken (sanitize base)
  (name, { taken := supply.taken.insert name, issued := supply.issued ++ [name] })

theorem fresh_not_mem_taken (supply : NameSupply) (base : String) :
    (supply.fresh base).1 ∉ supply.taken :=
  primeUntilFree_not_mem _ _

theorem mem_fresh_taken {supply : NameSupply} {base name : String} :
    name ∈ (supply.fresh base).2.taken ↔ name = (supply.fresh base).1 ∨ name ∈ supply.taken := by
  simp only [fresh, Std.ExtTreeSet.mem_insert, Std.compare_eq_iff_eq]
  exact or_congr_left eq_comm

@[simp] theorem fresh_issued (supply : NameSupply) (base : String) :
    (supply.fresh base).2.issued = supply.issued ++ [(supply.fresh base).1] := rfl

/-- One fresh name for each base, in order. -/
def freshAll (supply : NameSupply) : List String → List String × NameSupply
  | [] => ([], supply)
  | base :: bases =>
    let (name, supply) := supply.fresh base
    let (names, supply) := supply.freshAll bases
    (name :: names, supply)

end NameSupply

end FormalLanguages
