import FormalLanguages.Generation.Rows

/-!
Bounds on the work of a search over some rows. A path that holds each head at most `max + 1` times
has room for a bounded number of further expansions, and every expansion takes some of the room, so
a symbol costs at most a fixed power of the size of the rows.
-/

namespace FormalLanguages.Generation

/-- The symbols of a body that are still to be read, and the names expanded on the way to this
body, last one first. -/
structure Frame where
  symbols : Body
  path : List String

namespace Rows

/-- The number of symbols in some bodies and twice the number of the bodies. -/
def weight : List Body → Nat
  | [] => 0
  | body :: bodies => body.length + 2 + weight bodies

/-- The weight of all bodies. -/
def size : Rows → Nat
  | [] => 0
  | row :: rows => weight row.2 + size rows

theorem weight_bodies_le (rows : Rows) (name : String) :
    weight (rows.bodies name) ≤ rows.size := by
  induction rows with
  | nil => exact Nat.le_refl _
  | cons row rows ih =>
      rw [bodies_cons]
      simp only [size]
      split <;> omega

/-- How many more expansions a path has room for when each head may occur `max + 1` times. -/
def room (max : Nat) (path : List String) : Rows → Nat
  | [] => 0
  | row :: rows => (max + 1 - path.count row.1) + room max path rows

theorem room_cons_le (rows : Rows) (max : Nat) (name : String) (path : List String) :
    room max (name :: path) rows ≤ room max path rows := by
  induction rows with
  | nil => exact Nat.le_refl _
  | cons row rows ih =>
      have := List.count_le_count_cons (a := row.1) (b := name) (l := path)
      simp only [room]
      omega

/-- The expansion of a head that a path has room for takes some of it. -/
theorem room_cons_lt {rows : Rows} {max : Nat} {name : String} {path : List String}
    (hbodies : rows.bodies name ≠ []) (hcount : path.count name ≤ max) :
    room max (name :: path) rows < room max path rows := by
  induction rows with
  | nil => exact absurd rfl hbodies
  | cons row rows ih =>
      have hle := room_cons_le rows max name path
      simp only [room]
      rw [bodies_cons] at hbodies
      split at hbodies
      · rename_i hname
        subst hname
        rw [List.count_cons_self]
        omega
      · have := ih hbodies
        have := List.count_le_count_cons (a := row.1) (b := name) (l := path)
        omega

/-- The most steps that the search can take over one symbol when the path has some room. -/
def costWithin (rows : Rows) : Nat → Nat
  | 0 => 1
  | room + 1 => (rows.size + 1) * costWithin rows room

theorem costWithin_pos (rows : Rows) (room : Nat) : 0 < rows.costWithin room := by
  induction room with
  | zero => exact Nat.one_pos
  | succ room ih => exact Nat.mul_pos (Nat.succ_pos _) ih

theorem costWithin_mono (rows : Rows) {room room' : Nat} (h : room ≤ room') :
    rows.costWithin room ≤ rows.costWithin room' := by
  induction h with
  | refl => exact Nat.le_refl _
  | step _ ih => exact Nat.le_trans ih (Nat.le_mul_of_pos_left _ (Nat.succ_pos _))

/-- The most steps that the search can take over one symbol on a path. -/
def cost (rows : Rows) (max : Nat) (path : List String) : Nat :=
  rows.costWithin (room max path rows)

theorem cost_pos (rows : Rows) (max : Nat) (path : List String) : 0 < rows.cost max path :=
  rows.costWithin_pos _

/-- Trying all bodies of a name costs less than the name itself. -/
theorem weight_mul_cost_lt (rows : Rows) {max : Nat} {name : String} {path : List String}
    (hcount : path.count name ≤ max) :
    weight (rows.bodies name) * rows.cost max (name :: path) < rows.cost max path := by
  by_cases hbodies : rows.bodies name = []
  · rw [hbodies]
    simpa [weight] using rows.cost_pos max path
  · have hweight := Nat.mul_le_mul_right (rows.cost max (name :: path)) (rows.weight_bodies_le name)
    have hpos := rows.cost_pos max (name :: path)
    have hroom := rows.costWithin_mono (room_cons_lt hbodies hcount)
    change (rows.size + 1) * rows.cost max (name :: path) ≤ rows.cost max path at hroom
    rw [Nat.succ_mul] at hroom
    omega

/-- The most steps that the search can take over some frames. -/
def totalCost (rows : Rows) (max : Nat) : List Frame → Nat
  | [] => 0
  | frame :: frames =>
    1 + frame.symbols.length * rows.cost max frame.path + totalCost rows max frames

/-- Reading a symbol saves its cost. -/
theorem totalCost_cons (rows : Rows) (max : Nat) (symbol : Symbol) (symbols : Body)
    (path : List String) (frames : List Frame) :
    rows.totalCost max (⟨symbol :: symbols, path⟩ :: frames) =
      rows.totalCost max (⟨symbols, path⟩ :: frames) + rows.cost max path := by
  simp only [totalCost, List.length_cons, Nat.succ_mul]
  omega

end Rows

end FormalLanguages.Generation
