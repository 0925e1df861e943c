import Std.Data.ExtTreeSet

/-!
The harvest of a search: the chains found so far, each once, and the patience that is left.
-/

namespace FormalLanguages.Generation

/-- The chains found so far, last one first, and how many more bodies may be tried. -/
structure Harvest where
  found : List String := []
  seen : Std.ExtTreeSet String := ∅
  /-- No number stands for as many as it takes. -/
  patience : Option Nat := none
  mem_seen : ∀ chain, chain ∈ seen ↔ chain ∈ found := by simp

namespace Harvest

/-- Takes one body off the patience, or tells that it is used up. -/
def spend (harvest : Harvest) : Option Harvest :=
  match harvest.patience with
  | none => some harvest
  | some 0 => none
  | some (n + 1) => some { harvest with patience := some n }

/-- Adds a chain that was not found before. -/
def add (chain : String) (harvest : Harvest) : Harvest :=
  if chain ∈ harvest.seen then harvest
  else
    { harvest with
      found := chain :: harvest.found
      seen := harvest.seen.insert chain
      mem_seen := by
        intro other
        rw [Std.ExtTreeSet.mem_insert, Std.compare_eq_iff_eq, harvest.mem_seen other,
          List.mem_cons, eq_comm] }

theorem found_add (chain : String) (harvest : Harvest) :
    (harvest.add chain).found =
      if chain ∈ harvest.found then harvest.found else chain :: harvest.found := by
  unfold add
  by_cases h : chain ∈ harvest.found
  · rw [if_pos ((harvest.mem_seen chain).mpr h), if_pos h]
  · rw [if_neg (mt (harvest.mem_seen chain).mp h), if_neg h]

/-- The chains in the order in which they were found. -/
def chains (harvest : Harvest) : List String :=
  harvest.found.reverse

end Harvest

end FormalLanguages.Generation
