import FormalLanguages.Proofs.Generation.Windows
import Mathlib.Logic.Relation

/-!
Searches end. The search is taken apart into single steps with a stack of the expansions whose other
bodies wait. A step does not recur, so nothing is said in advance about whether the steps come to an
end. They do, from wherever they start: the work that is still ahead becomes less with every step,
since a name that is expanded takes some of the room of its path. From a goal the steps come to the
harvest of the generator, and they expand no name that its path holds more often than the maximum.
-/

namespace FormalLanguages.Generation

open Relation

/-! ### Single steps -/

/-- An expansion with the bodies that wait until the one in front of them has been tried. -/
structure Pending where
  name : String
  path : List String
  frames : List Frame
  letters : List Char
  others : List Body

namespace Pending

/-- What goes on after the body that has been tried. -/
def task (pending : Pending) : Task :=
  .expand pending.name pending.path pending.frames pending.letters pending.others

/-- The name with the path that it is expanded on. -/
def expansion (pending : Pending) : String × List String :=
  (pending.name, pending.path)

end Pending

/-- Where the search is between two steps. -/
inductive State where
  /-- Bodies of the goal are to be tried. -/
  | goal (bodies : List Body) (harvest : Harvest)
  /-- A task is to be done inside some expansions, the innermost one first. -/
  | work (task : Task) (stack : List Pending) (bodies : List Body) (harvest : Harvest)
  /-- A task has ended. -/
  | back (outcome : Outcome) (stack : List Pending) (bodies : List Body) (harvest : Harvest)

/-- The search from the goal goes on from the first state to the second one. -/
inductive Steps (rows : Rows) (settings : Settings) (goal : String) : State → State → Prop where
  | goal {body : Body} {bodies : List Body} {harvest : Harvest} :
      Steps rows settings goal (.goal (body :: bodies) harvest)
        (.work (.read [⟨body, [goal]⟩] []) [] bodies harvest)
  | done {letters : List Char} {stack : List Pending} {bodies : List Body} {harvest : Harvest} :
      Steps rows settings goal (.work (.read [] letters) stack bodies harvest)
        (.back (.chain letters) stack bodies harvest)
  | leave {path : List String} {frames : List Frame} {letters : List Char} {stack : List Pending}
      {bodies : List Body} {harvest : Harvest} :
      Steps rows settings goal (.work (.read (⟨[], path⟩ :: frames) letters) stack bodies harvest)
        (.work (.read frames letters) stack bodies harvest)
  | letter {c : Char} {symbols : Body} {path : List String} {frames : List Frame}
      {letters : List Char} {stack : List Pending} {bodies : List Body} {harvest : Harvest} :
      Steps rows settings goal
        (.work (.read (⟨.terminal c :: symbols, path⟩ :: frames) letters) stack bodies harvest)
        (.work (.read (⟨symbols, path⟩ :: frames) (c :: letters)) stack bodies harvest)
  | enter {name : String} {symbols : Body} {path : List String} {frames : List Frame}
      {letters : List Char} {stack : List Pending} {bodies : List Body} {harvest : Harvest}
      (hcount : path.count name ≤ settings.max) :
      Steps rows settings goal
        (.work (.read (⟨.nonTerminal name :: symbols, path⟩ :: frames) letters) stack bodies
          harvest)
        (.work (.expand name path (⟨symbols, path⟩ :: frames) letters (rows.bodies name)) stack
          bodies harvest)
  | recur {name : String} {symbols : Body} {path : List String} {frames : List Frame}
      {letters : List Char} {stack : List Pending} {bodies : List Body} {harvest : Harvest}
      (hcount : settings.max < path.count name) :
      Steps rows settings goal
        (.work (.read (⟨.nonTerminal name :: symbols, path⟩ :: frames) letters) stack bodies
          harvest)
        (.back (.loopAt name) stack bodies harvest)
  | exhausted {name : String} {path : List String} {frames : List Frame} {letters : List Char}
      {stack : List Pending} {bodies : List Body} {harvest : Harvest} :
      Steps rows settings goal (.work (.expand name path frames letters []) stack bodies harvest)
        (.back .finished stack bodies harvest)
  | body {name : String} {path : List String} {frames : List Frame} {letters : List Char}
      {body : Body} {others : List Body} {stack : List Pending} {bodies : List Body}
      {harvest : Harvest} :
      Steps rows settings goal
        (.work (.expand name path frames letters (body :: others)) stack bodies harvest)
        (.work (.read (⟨body, name :: path⟩ :: frames) letters)
          (⟨name, path, frames, letters, others⟩ :: stack) bodies harvest)
  | tooLong {letters : List Char} {pending : Pending} {stack : List Pending} {bodies : List Body}
      {harvest : Harvest} (hlong : settings.max < letters.length) :
      Steps rows settings goal (.back (.chain letters) (pending :: stack) bodies harvest)
        (.back .finished stack bodies harvest)
  | offered {letters : List Char} {pending : Pending} {stack : List Pending} {bodies : List Body}
      {harvest : Harvest} (hshort : letters.length ≤ settings.max) :
      Steps rows settings goal (.back (.chain letters) (pending :: stack) bodies harvest)
        (.work pending.task stack bodies (settings.offer letters harvest))
  | next {ended : Outcome} {pending : Pending} {stack : List Pending} {bodies : List Body}
      {harvest : Harvest} (hended : ended = .finished ∨ ended = .loopAt pending.name) :
      Steps rows settings goal (.back ended (pending :: stack) bodies harvest)
        (.work pending.task stack bodies harvest)
  | unwind {looped : String} {pending : Pending} {stack : List Pending} {bodies : List Body}
      {harvest : Harvest} (hne : looped ≠ pending.name) :
      Steps rows settings goal (.back (.loopAt looped) (pending :: stack) bodies harvest)
        (.back (.loopAt looped) stack bodies harvest)
  | deliver {outcome : Outcome} {bodies : List Body} {harvest : Harvest} :
      Steps rows settings goal (.back outcome [] bodies harvest)
        (.goal bodies (outcome.deliver settings harvest))

variable {rows : Rows} {settings : Settings} {goal : String} {s s' s'' : State} {task : Task}
variable {harvest harvest' : Harvest} {outcome : Outcome} {pending : Pending}
variable {stack : List Pending} {bodies : List Body}

/-- A state has at most one next state. -/
theorem Steps.unique (h : Steps rows settings goal s s') (h' : Steps rows settings goal s s'') :
    s' = s'' := by
  cases h with
  | enter hcount =>
      cases h' with
      | enter => rfl
      | recur hcount' => omega
  | recur hcount =>
      cases h' with
      | enter hcount' => omega
      | recur => rfl
  | tooLong hlong =>
      cases h' with
      | tooLong => rfl
      | offered hshort => omega
      | next hended => simp at hended
  | offered hshort =>
      cases h' with
      | tooLong hlong => omega
      | offered => rfl
      | next hended => simp at hended
  | next hended =>
      cases h' with
      | tooLong => simp at hended
      | offered => simp at hended
      | next => rfl
      | unwind hne => simp [hne] at hended
  | unwind hne =>
      cases h' with
      | next hended => simp [hne] at hended
      | unwind => rfl
  | _ =>
      cases h'
      rfl

/-! ### What the steps come to -/

/-- The steps from a task come back with what the task comes to. -/
theorem Runs.steps (h : Runs rows settings task harvest harvest' outcome) (stack : List Pending)
    (bodies : List Body) :
    ReflTransGen (Steps rows settings goal) (.work task stack bodies harvest)
      (.back outcome stack bodies harvest') := by
  induction h generalizing stack with
  | done => exact .single .done
  | leave _ ih => exact .head .leave (ih stack)
  | letter _ ih => exact .head .letter (ih stack)
  | enter hcount _ ih => exact .head (.enter hcount) (ih stack)
  | recur _ hcount => exact .single (.recur hcount)
  | exhausted => exact .single .exhausted
  | tooLong _ hlong ih => exact .head .body ((ih _).tail (.tooLong hlong))
  | offered _ hshort _ ihbody ihothers =>
      exact .head .body (((ihbody _).tail (.offered hshort)).trans (ihothers stack))
  | next _ hended _ ihbody ihothers =>
      exact .head .body (((ihbody _).tail (.next hended)).trans (ihothers stack))
  | unwind _ hne ih => exact .head .body ((ih _).tail (.unwind hne))

theorem Visits.steps (h : Visits rows settings goal bodies harvest harvest') :
    ReflTransGen (Steps rows settings goal) (.goal bodies harvest) (.goal [] harvest') := by
  induction h with
  | nil => exact .refl
  | cons hbody _ ih => exact .head .goal (((hbody.steps [] _).tail .deliver).trans ih)

/-- Wherever the steps of a search have come to, they go on to its harvest. -/
theorem Visits.steps_of_steps (h : Visits rows settings goal bodies harvest harvest')
    (hs : ReflTransGen (Steps rows settings goal) (.goal bodies harvest) s) :
    ReflTransGen (Steps rows settings goal) s (.goal [] harvest') := by
  have hunique : Relator.RightUnique (Steps rows settings goal) := fun _ _ _ => Steps.unique
  rcases ReflTransGen.total_of_right_unique hunique hs h.steps with hs | hs
  · exact hs
  · -- there is no step after the last one
    rcases hs.cases_head with rfl | ⟨_, hstep, -⟩
    · exact .refl
    · cases hstep

/-! ### The work ahead -/

/-- The steps over a task of this cost: it hands over to at most two others that cost less. -/
def stepsWithin : Nat → Nat
  | 0 => 1
  | cost + 1 => 2 * stepsWithin cost + 2

theorem stepsWithin_pos (cost : Nat) : 0 < stepsWithin cost := by
  cases cost with
  | zero => exact Nat.one_pos
  | succ cost => exact Nat.succ_pos _

theorem stepsWithin_mono {cost cost' : Nat} (h : cost ≤ cost') :
    stepsWithin cost ≤ stepsWithin cost' := by
  induction h with
  | refl => exact Nat.le_refl _
  | step _ ih =>
      simp only [stepsWithin]
      omega

theorem two_mul_stepsWithin_lt {cost cost' : Nat} (h : cost < cost') :
    2 * stepsWithin cost + 1 < stepsWithin cost' := by
  have hmono := stepsWithin_mono h
  simp only [stepsWithin] at hmono
  omega

namespace Task

/-- The cost of the symbols that are still to be read and of the bodies that are to be tried. -/
def cost (rows : Rows) (max : Nat) : Task → Nat
  | .read frames _ => rows.totalCost max frames
  | .expand name path frames _ bodies =>
      rows.totalCost max frames + Rows.weight bodies * rows.cost max (name :: path)

variable {max : Nat} {name : String} {symbols body : Body} {path : List String}
variable {frames : List Frame} {letters : List Char} {others : List Body}

theorem cost_leave :
    (Task.read frames letters).cost rows max <
      (Task.read (⟨[], path⟩ :: frames) letters).cost rows max := by
  simp only [cost, Rows.totalCost, List.length_nil]
  omega

theorem cost_letter {c : Char} :
    (Task.read (⟨symbols, path⟩ :: frames) (c :: letters)).cost rows max <
      (Task.read (⟨.terminal c :: symbols, path⟩ :: frames) letters).cost rows max := by
  have hpos := rows.cost_pos max path
  simp only [cost, Rows.totalCost_cons]
  omega

/-- A name costs more than all of its bodies while its path has room for it. -/
theorem cost_enter (hcount : path.count name ≤ max) :
    (Task.expand name path (⟨symbols, path⟩ :: frames) letters (rows.bodies name)).cost rows max <
      (Task.read (⟨.nonTerminal name :: symbols, path⟩ :: frames) letters).cost rows max := by
  have hweight := rows.weight_mul_cost_lt hcount
  simp only [cost, Rows.totalCost_cons]
  omega

theorem cost_body :
    (Task.read (⟨body, name :: path⟩ :: frames) letters).cost rows max <
      (Task.expand name path frames letters (body :: others)).cost rows max := by
  have hpos := rows.cost_pos max (name :: path)
  simp only [cost, Rows.totalCost, Rows.weight, Nat.add_mul]
  omega

theorem cost_others :
    (Task.expand name path frames letters others).cost rows max <
      (Task.expand name path frames letters (body :: others)).cost rows max := by
  have hpos := rows.cost_pos max (name :: path)
  simp only [cost, Rows.weight, Nat.add_mul]
  omega

/-- The most steps that the task can take. -/
def steps (rows : Rows) (max : Nat) (task : Task) : Nat :=
  stepsWithin (task.cost rows max)

end Task

namespace State

/-- The steps over the expansions on the stack, that to each of them included. -/
def stepsOver (rows : Rows) (max : Nat) : List Pending → Nat
  | [] => 0
  | pending :: stack => pending.task.steps rows max + 1 + stepsOver rows max stack

/-- The steps over bodies of the goal, those to each of them and back included. -/
def stepsAhead (rows : Rows) (max : Nat) (goal : String) : List Body → Nat
  | [] => 0
  | body :: bodies =>
      (Task.read [⟨body, [goal]⟩] []).steps rows max + 2 + stepsAhead rows max goal bodies

/-- The most steps that the search can still take. -/
def ahead (rows : Rows) (max : Nat) (goal : String) : State → Nat
  | .goal bodies _ => stepsAhead rows max goal bodies
  | .work task stack bodies _ =>
      task.steps rows max + stepsOver rows max stack + 1 + stepsAhead rows max goal bodies
  | .back _ stack bodies _ => stepsOver rows max stack + 1 + stepsAhead rows max goal bodies

variable {max : Nat} {task' : Task} {outcome' : Outcome}

theorem ahead_work_lt (h : task'.cost rows max < task.cost rows max) :
    (State.work task' stack bodies harvest').ahead rows max goal <
      (State.work task stack bodies harvest).ahead rows max goal := by
  have hsteps := two_mul_stepsWithin_lt h
  simp only [ahead, Task.steps]
  omega

theorem ahead_back_lt :
    (State.back outcome stack bodies harvest').ahead rows max goal <
      (State.work task stack bodies harvest).ahead rows max goal := by
  have hpos := stepsWithin_pos (task.cost rows max)
  simp only [ahead, Task.steps]
  omega

theorem ahead_push_lt (hbody : task'.cost rows max < task.cost rows max)
    (hothers : pending.task.cost rows max < task.cost rows max) :
    (State.work task' (pending :: stack) bodies harvest').ahead rows max goal <
      (State.work task stack bodies harvest).ahead rows max goal := by
  have hbody := two_mul_stepsWithin_lt hbody
  have hothers := two_mul_stepsWithin_lt hothers
  simp only [ahead, stepsOver, Task.steps]
  omega

theorem ahead_resume_lt :
    (State.work pending.task stack bodies harvest').ahead rows max goal <
      (State.back outcome (pending :: stack) bodies harvest).ahead rows max goal := by
  simp only [ahead, stepsOver]
  omega

theorem ahead_pop_lt :
    (State.back outcome' stack bodies harvest').ahead rows max goal <
      (State.back outcome (pending :: stack) bodies harvest).ahead rows max goal := by
  simp only [ahead, stepsOver]
  omega

/-- Every step leaves less work. -/
theorem ahead_lt_of_steps (h : Steps rows settings goal s s') :
    s'.ahead rows settings.max goal < s.ahead rows settings.max goal := by
  cases h with
  | goal =>
      simp only [ahead, stepsAhead, stepsOver]
      omega
  | done => exact ahead_back_lt
  | leave => exact ahead_work_lt Task.cost_leave
  | letter => exact ahead_work_lt Task.cost_letter
  | enter hcount => exact ahead_work_lt (Task.cost_enter hcount)
  | recur => exact ahead_back_lt
  | exhausted => exact ahead_back_lt
  | body => exact ahead_push_lt Task.cost_body Task.cost_others
  | tooLong => exact ahead_pop_lt
  | offered => exact ahead_resume_lt
  | next => exact ahead_resume_lt
  | unwind => exact ahead_pop_lt
  | deliver =>
      simp only [ahead, stepsOver]
      omega

/-! ### Paths with room -/

/-- The names that are being expanded, each with the path that it is expanded on, the innermost one
first. -/
def expansions : State → List (String × List String)
  | .goal _ _ => []
  | .work (.read _ _) stack _ _ => stack.map Pending.expansion
  | .work (.expand name path _ _ _) stack _ _ => (name, path) :: stack.map Pending.expansion
  | .back _ stack _ _ => stack.map Pending.expansion

/-- Every name that is being expanded has been on its path no more often than the limit says. -/
def HasRoom (limit : Nat) (s : State) : Prop :=
  ∀ name path, (name, path) ∈ s.expansions → path.count name ≤ limit

/-- A step that begins an expansion looks for room on the path, and no other step adds one. -/
theorem HasRoom.of_steps (hs : s.HasRoom settings.max) (h : Steps rows settings goal s s') :
    s'.HasRoom settings.max := by
  have hpop : ∀ {expansion : String × List String} {expansions : List (String × List String)},
      (∀ name path, (name, path) ∈ expansion :: expansions → path.count name ≤ settings.max) →
        ∀ name path, (name, path) ∈ expansions → path.count name ≤ settings.max :=
    fun hroom name path hmem => hroom name path (List.mem_cons_of_mem _ hmem)
  cases h with
  | goal => exact hs
  | done => exact hs
  | leave => exact hs
  | letter => exact hs
  | enter hcount =>
      intro name path hmem
      rcases List.mem_cons.mp hmem with heq | hmem
      · obtain ⟨rfl, rfl⟩ := Prod.mk.inj heq
        exact hcount
      · exact hs name path hmem
  | recur => exact hs
  | exhausted => exact hpop hs
  | body => exact hs
  | tooLong => exact hpop hs
  | offered => exact hs
  | next => exact hs
  | unwind => exact hpop hs
  | deliver => exact hs

/-- The start of a search from a goal. -/
def start (rules : RuleTable) (goal : String) (settings : Settings) (harvest : Harvest) : State :=
  .goal ((Rows.ofRules settings.order rules).bodies goal) harvest

theorem hasRoom_of_start {rules : RuleTable}
    (h : ReflTransGen (Steps rows settings goal) (start rules goal settings harvest) s) :
    s.HasRoom settings.max := by
  induction h with
  | refl => exact fun name path hmem => absurd hmem List.not_mem_nil
  | tail _ hstep ih => exact ih.of_steps hstep

end State

/-! ### The end -/

/-- Steps go on forever from no state. -/
theorem not_exists_forever (rows : Rows) (settings : Settings) (goal : String) :
    ¬ ∃ states : Nat → State, ∀ n, Steps rows settings goal (states n) (states (n + 1)) := by
  rintro ⟨states, hsteps⟩
  -- the work of the first state would cover any number of steps
  have hahead : ∀ n, (states n).ahead rows settings.max goal + n ≤
      (states 0).ahead rows settings.max goal := by
    intro n
    induction n with
    | zero => exact Nat.le_refl _
    | succ n ih =>
        have hlt := State.ahead_lt_of_steps (hsteps n)
        omega
  have hall := hahead ((states 0).ahead rows settings.max goal + 1)
  omega

/-- No search goes on forever. Its steps end from wherever they start; from a goal they come to the
chains of the generator, and all names that are expanded on the way have room on their paths. -/
theorem search_ends (rules : RuleTable) (goal : String) (settings : Settings) :
    (¬ ∃ states : Nat → State, ∀ n,
      Steps (Rows.ofRules settings.order rules) settings goal (states n) (states (n + 1))) ∧
    ∃ harvest, generate rules goal settings none = .completed harvest.chains ∧
      ∀ s, ReflTransGen (Steps (Rows.ofRules settings.order rules) settings goal)
          (State.start rules goal settings {}) s →
        ReflTransGen (Steps (Rows.ofRules settings.order rules) settings goal) s
          (.goal [] harvest) ∧ s.HasRoom settings.max := by
  obtain ⟨harvest, hgenerate, hvisits⟩ := exists_generate rules goal settings
  refine ⟨not_exists_forever _ settings goal, harvest, hgenerate, fun s hs => ⟨?_, ?_⟩⟩
  · exact hvisits.steps_of_steps hs
  · exact State.hasRoom_of_start hs

/-- The expansion of `A` in the first body of `S`. -/
def expandsA (settings : Settings) (harvest : Harvest) : State :=
  .work (.expand "A" ["S"] [⟨[], ["S"]⟩] []
    ((Rows.ofRules settings.order leftRecursive).bodies "A")) []
    [[.nonTerminal "S", .terminal 'a']] harvest

theorem steps_to_expandsA :
    ReflTransGen (Steps (Rows.ofRules .leftmost leftRecursive) ⟨1, 3, .leftmost, by decide⟩ "S")
      (State.start leftRecursive "S" ⟨1, 3, .leftmost, by decide⟩ {})
      (expandsA ⟨1, 3, .leftmost, by decide⟩ {}) := by
  have hbodies : (Rows.ofRules .leftmost leftRecursive).bodies "S" =
      [[.nonTerminal "A"], [.nonTerminal "S", .terminal 'a']] := by decide +kernel
  rw [State.start, hbodies]
  exact .head .goal (.single (.enter (Nat.zero_le _)))

theorem search_ends_leftRecursive :
    ReflTransGen (Steps (Rows.ofRules .leftmost leftRecursive) ⟨1, 3, .leftmost, by decide⟩ "S")
      (State.start leftRecursive "S" ⟨1, 3, .leftmost, by decide⟩ {})
      (expandsA ⟨1, 3, .leftmost, by decide⟩ {}) ∧
    ∃ harvest, generate leftRecursive "S" ⟨1, 3, .leftmost, by decide⟩ none =
        .completed harvest.chains ∧
      ReflTransGen
        (Steps (Rows.ofRules .leftmost leftRecursive) ⟨1, 3, .leftmost, by decide⟩ "S")
        (expandsA ⟨1, 3, .leftmost, by decide⟩ {}) (.goal [] harvest) ∧
      (expandsA ⟨1, 3, .leftmost, by decide⟩ {}).HasRoom 3 := by
  obtain ⟨-, harvest, hgenerate, hsteps⟩ :=
    search_ends leftRecursive "S" ⟨1, 3, .leftmost, by decide⟩
  exact ⟨steps_to_expandsA, harvest, hgenerate, hsteps _ steps_to_expandsA⟩

end FormalLanguages.Generation
