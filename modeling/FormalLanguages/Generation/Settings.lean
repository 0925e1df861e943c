/-!
Settings of a search for chains: the lengths wanted and the end of a sentential form that is
expanded first.
-/

namespace FormalLanguages.Generation

/-- Which non-terminal of a sentential form is expanded. -/
inductive Order where
  | leftmost
  | rightmost
  deriving DecidableEq, Repr

inductive Error where
  | invalidLengthWindow (min max : Nat)
  | missingGoal
  deriving DecidableEq, Repr

def Error.message : Error → String
  | .invalidLengthWindow min max =>
    "Minimum chain length " ++ toString min ++ " is greater than maximum " ++ toString max
  | .missingGoal => "The grammar has no goal symbol"

/-- The window of lengths, both ends included, and the order of expansion. -/
structure Settings where
  min : Nat
  max : Nat
  order : Order
  min_le_max : min ≤ max
  deriving DecidableEq

def Settings.of (min max : Nat) (order : Order) : Except Error Settings :=
  if h : min ≤ max then .ok ⟨min, max, order, h⟩ else .error (.invalidLengthWindow min max)

end FormalLanguages.Generation
