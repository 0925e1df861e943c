import FormalLanguages.Generation.Cost
import FormalLanguages.Generation.Harvest

/-!
The search for the chains of a rule table. It walks sentential forms depth first, trying the bodies
of every non-terminal in their order. A chain above the window ends the bodies of the non-terminal
that was expanded last, and a name that recurs too often on its own path ends every expansion up to
the last one of this name. The search ends on every table: a path holds each head at most
`max + 1` times.
-/

namespace FormalLanguages.Generation

/-- How a branch of the search ended. -/
inductive Outcome where
  /-- Every symbol was read; the letters are held last one first. -/
  | chain (letters : List Char)
  /-- The bodies of a name are used up or given up. -/
  | finished
  /-- A name recurred too often on its path. -/
  | loopAt (name : String)
  /-- The patience is used up. -/
  | stopped

/-- Adds the chain of some letters if it is in the window and new. -/
def Settings.offer (settings : Settings) (letters : List Char) (harvest : Harvest) : Harvest :=
  if settings.min ≤ letters.length ∧ letters.length ≤ settings.max then
    harvest.add (settings.order.chain letters)
  else harvest

mutual

/-- Reads the symbols of the innermost frame, and then of the frames around it, until a
non-terminal has to be expanded. -/
def derive (rows : Rows) (settings : Settings) (frames : List Frame) (letters : List Char)
    (harvest : Harvest) : Harvest × Outcome :=
  match frames with
  | [] => (harvest, .chain letters)
  | ⟨[], _⟩ :: frames => derive rows settings frames letters harvest
  | ⟨.terminal c :: symbols, path⟩ :: frames =>
    derive rows settings (⟨symbols, path⟩ :: frames) (c :: letters) harvest
  | ⟨.nonTerminal name :: symbols, path⟩ :: frames =>
    if path.count name ≤ settings.max then
      tryBodies rows settings name path (⟨symbols, path⟩ :: frames) letters (rows.bodies name)
        harvest
    else (harvest, .loopAt name)
termination_by rows.totalCost settings.max frames
decreasing_by
  · simp only [Rows.totalCost, List.length_nil]
    omega
  · rw [Rows.totalCost_cons]
    have := rows.cost_pos settings.max path
    omega
  · rw [Rows.totalCost_cons]
    have := rows.weight_mul_cost_lt ‹path.count name ≤ settings.max›
    omega

/-- Tries bodies of a name in front of the frames that wait. -/
def tryBodies (rows : Rows) (settings : Settings) (name : String) (path : List String)
    (frames : List Frame) (letters : List Char) (bodies : List Body) (harvest : Harvest) :
    Harvest × Outcome :=
  match bodies with
  | [] => (harvest, .finished)
  | body :: others =>
    match harvest.spend with
    | none => (harvest, .stopped)
    | some harvest =>
      match derive rows settings (⟨body, name :: path⟩ :: frames) letters harvest with
      | (harvest, .chain letters') =>
        if settings.max < letters'.length then (harvest, .finished)
        else
          tryBodies rows settings name path frames letters others (settings.offer letters' harvest)
      | (harvest, .finished) => tryBodies rows settings name path frames letters others harvest
      | (harvest, .loopAt looped) =>
        if looped = name then tryBodies rows settings name path frames letters others harvest
        else (harvest, .loopAt looped)
      | (harvest, .stopped) => (harvest, .stopped)
termination_by
  rows.totalCost settings.max frames + Rows.weight bodies * rows.cost settings.max (name :: path)
decreasing_by
  all_goals
    have := rows.cost_pos settings.max (name :: path)
    simp only [Rows.totalCost, Rows.weight, Nat.add_mul]
    omega

end

/-- Tries bodies of the goal; nothing is left when the patience is used up. -/
def search (rows : Rows) (settings : Settings) (goal : String) :
    List Body → Harvest → Option Harvest
  | [], harvest => some harvest
  | body :: others, harvest =>
    match harvest.spend with
    | none => none
    | some harvest =>
      match derive rows settings [⟨body, [goal]⟩] [] harvest with
      | (_, .stopped) => none
      | (harvest, .chain letters) =>
        search rows settings goal others (settings.offer letters harvest)
      | (harvest, _) => search rows settings goal others harvest

end FormalLanguages.Generation
