import FormalLanguages.Generation.Settings
import FormalLanguages.Symbol

/-!
Rule tables as a search reads them: each head with its bodies, every body from the end that is
expanded first.
-/

namespace FormalLanguages.Generation

/-- A body in the order in which the search reads it. -/
def Order.arrange : Order → Body → Body
  | .leftmost, body => body
  | .rightmost, body => body.reverse

/-- The chain of the letters read, which are held last one first. -/
def Order.chain : Order → List Char → String
  | .leftmost, letters => String.ofList letters.reverse
  | .rightmost, letters => String.ofList letters

/-- The bodies of each head, as the search reads them. -/
abbrev Rows := List (String × List Body)

namespace Rows

def ofRules (order : Order) (rules : RuleTable) : Rows :=
  rules.rows.map fun row => (row.1, row.2.map order.arrange)

def bodies (rows : Rows) (name : String) : List Body :=
  (rows.lookup name).getD []

theorem bodies_cons (row : String × List Body) (rows : Rows) (name : String) :
    bodies (row :: rows) name = if name = row.1 then row.2 else bodies rows name := by
  unfold bodies
  rw [List.lookup_cons]
  by_cases h : name = row.1
  · simp [h]
  · have hbeq : (name == row.1) = false := by simpa using h
    rw [hbeq, if_neg h]

end Rows

end FormalLanguages.Generation
