import FormalLanguages.Automaton.Finite
import FormalLanguages.Proofs.Answers
import FormalLanguages.Proofs.Texts
import Mathlib.Data.Nat.Init

/-!
Runs of finite automata. The transitions alone say which state each letter leads to. A run shows
these states one after the other, up to the end of the input or to the first letter that a blank
state or a missing transition keeps it from reading, and its verdict says which of these it was.
-/

namespace FormalLanguages.Automaton.Finite

/-- The state that transitions lead to from a state over the first `i` letters of an input. -/
def stateAfter (m : Finite) (state : String) (input : List Char) : Nat → Option String
  | 0 => some state
  | i + 1 =>
    (m.stateAfter state input i).bind fun previous => input[i]?.bind (m.next? previous)

/-- The state consists of blanks only. -/
def IsBlankState (state : String) : Prop :=
  state.toList.all Text.isBlank = true

instance (state : String) : Decidable (IsBlankState state) :=
  inferInstanceAs (Decidable (_ = true))

/-- The letter after the first `i` can be read: the state before it is not blank and has a
transition on it. -/
def ReadsAt (m : Finite) (state : String) (input : List Char) (i : Nat) : Prop :=
  (∃ previous ∈ m.stateAfter state input i, ¬ IsBlankState previous) ∧
    (m.stateAfter state input (i + 1)).isSome

instance (m : Finite) (state : String) (input : List Char) (i : Nat) :
    Decidable (m.ReadsAt state input i) :=
  inferInstanceAs (Decidable (_ ∧ _))

/-- Why a letter cannot be read in a state. -/
inductive Blocks (m : Finite) (state : String) (c : Char) : String → Prop where
  | blank (hblank : IsBlankState state) : Blocks m state c "the current state is undefined"
  | foreign (hblank : ¬ IsBlankState state) (hnext : m.next? state c = none)
      (hforeign : c ∉ m.alphabet) :
      Blocks m state c ("`" ++ String.singleton c ++ "` is not in the alphabet")
  | missing (hblank : ¬ IsBlankState state) (hnext : m.next? state c = none)
      (hknown : c ∈ m.alphabet) :
      Blocks m state c ("no transition from " ++ state ++ " on `" ++ String.singleton c ++ "`")

/-- The line for a state and the letters left to read. -/
def traceLine (state : String) (rest : List Char) : String :=
  "(" ++ state ++ ", " ++ orLambda rest ++ ")"

/-- The lines are those for the states after the first letters of an input, in order, and the first
`marked` of them carry the step marker. -/
structure Shows (m : Finite) (state : String) (input : List Char) (count marked : Nat)
    (lines : List String) : Prop where
  length : lines.length = count
  line : ∀ i < count, ∃ current, m.stateAfter state input i = some current ∧
    lines[i]? = some (traceLine current (input.drop i) ++ if i < marked then " ┠" else "")

/-- The run reads the whole input, and the state in the end decides. -/
structure Completes (m : Finite) (state : String) (input : List Char)
    (run : Run Configuration) : Prop where
  reads : ∀ i < input.length, m.ReadsAt state input i
  verdict : ∃ final, m.stateAfter state input input.length = some final ∧
    run.verdict = if final ∈ m.accepting then .ok () else .error .notAccepted
  lines : m.Shows state input (input.length + 1) input.length (run.lines Configuration.fields)

/-- The run reads the first `k` letters and is undefined from there, for a reason that the next
letter gives. -/
structure BreaksOff (m : Finite) (state : String) (input : List Char) (k : Nat)
    (run : Run Configuration) : Prop where
  reads : ∀ i < k, m.ReadsAt state input i
  verdict : ∃ current c reason rejection, m.stateAfter state input k = some current ∧
    input[k]? = some c ∧ m.Blocks current c reason ∧ run.verdict = .error rejection ∧
    rejection.undefinedReason? = some reason
  lines : m.Shows state input (k + 1) (k + 1) (run.lines Configuration.fields)

variable {m : Finite} {state target : String} {c : Char} {input rest : List Char}
variable {i k count marked : Nat} {lines : List String} {run : Run Configuration}

/-! ### One letter -/

theorem isEmpty_trim_iff : (Text.trim state.toList).isEmpty = true ↔ IsBlankState state := by
  rw [List.isEmpty_iff, Text.trim_eq_nil_iff, IsBlankState, List.all_eq_true]

theorem of_step_eq_ok (h : m.step state c = .ok target) :
    ¬ IsBlankState state ∧ m.next? state c = some target := by
  simp only [step, isEmpty_trim_iff] at h
  split at h
  · exact absurd h (by simp)
  · rename_i hblank
    split at h
    · rename_i hnext
      exact ⟨hblank, hnext.trans (congrArg some (Except.ok.inj h))⟩
    · exact absurd h (by simp)

theorem exists_blocks_of_step {rejection : Rejection} (h : m.step state c = .error rejection) :
    ∃ reason, m.Blocks state c reason ∧ rejection.undefinedReason? = some reason := by
  simp only [step, isEmpty_trim_iff] at h
  split at h
  · rename_i hblank
    obtain rfl := Except.error.inj h
    exact ⟨_, .blank hblank, rfl⟩
  · rename_i hblank
    split at h
    · exact absurd h (by simp)
    · rename_i hnext
      obtain rfl := Except.error.inj h
      split
      · exact ⟨_, .missing hblank hnext ‹_›, rfl⟩
      · exact ⟨_, .foreign hblank hnext ‹_›, rfl⟩

theorem stateAfter_succ (h : m.next? state c = some target) :
    m.stateAfter state (c :: rest) (i + 1) = m.stateAfter target rest i := by
  induction i with
  | zero => simp [stateAfter, h]
  | succ i ih => rw [stateAfter, ih, List.getElem?_cons_succ, stateAfter]

theorem readsAt_succ_iff (h : m.next? state c = some target) :
    m.ReadsAt state (c :: rest) (i + 1) ↔ m.ReadsAt target rest i := by
  simp only [ReadsAt, stateAfter_succ h]

theorem readsAt_zero (hblank : ¬ IsBlankState state) (h : m.next? state c = some target) :
    m.ReadsAt state (c :: rest) 0 :=
  ⟨⟨state, rfl, hblank⟩, by simp [stateAfter, h]⟩

theorem forall_readsAt_succ (hblank : ¬ IsBlankState state) (h : m.next? state c = some target)
    (hreads : ∀ i < k, m.ReadsAt target rest i) : ∀ i < k + 1, m.ReadsAt state (c :: rest) i := by
  rw [Nat.forall_lt_succ_left]
  exact ⟨readsAt_zero hblank h, fun i hi => (readsAt_succ_iff h).mpr (hreads i hi)⟩

/-- A letter that is blocked is not read. -/
theorem Blocks.not_readsAt {reason : String} (h : m.Blocks state c reason)
    (hstate : m.stateAfter target input k = some state) (hc : input[k]? = some c) :
    ¬ m.ReadsAt target input k := by
  rintro ⟨⟨previous, hprevious, hblank⟩, hnext⟩
  obtain rfl : state = previous := Option.some.inj (hstate.symm.trans hprevious)
  rw [stateAfter, hstate, hc, Option.bind_some, Option.bind_some] at hnext
  cases h with
  | blank hblank' => exact hblank hblank'
  | foreign _ hnone => simp [hnone] at hnext
  | missing _ hnone => simp [hnone] at hnext

/-! ### Lines -/

theorem configurationLine_fields (c : Configuration) :
    configurationLine c.fields = traceLine c.state c.rest :=
  rfl

theorem shows_start {start : String}
    (h : start = traceLine state input ++ if 0 < marked then " ┠" else "") :
    m.Shows state input 1 marked [start] where
  length := rfl
  line i hi := by
    obtain rfl : i = 0 := by omega
    exact ⟨state, rfl, congrArg some h⟩

theorem Shows.cons (hshows : m.Shows target rest count marked lines)
    (h : m.next? state c = some target) :
    m.Shows state (c :: rest) (count + 1) (marked + 1)
      ((traceLine state (c :: rest) ++ " ┠") :: lines) where
  length := by simp [hshows.length]
  line i hi := by
    cases i with
    | zero => exact ⟨state, rfl, by simp⟩
    | succ i =>
        obtain ⟨current, hcurrent, hline⟩ := hshows.line i (by omega)
        refine ⟨current, (stateAfter_succ h).trans hcurrent, ?_⟩
        simpa using hline

/-! ### Runs -/

theorem Completes.cons (hrun : m.Completes target rest run) (hblank : ¬ IsBlankState state)
    (h : m.next? state c = some target) :
    m.Completes state (c :: rest) { run with passed := ⟨state, c :: rest⟩ :: run.passed } where
  reads := forall_readsAt_succ hblank h hrun.reads
  verdict := by
    obtain ⟨final, hfinal, hverdict⟩ := hrun.verdict
    exact ⟨final, (stateAfter_succ h).trans hfinal, hverdict⟩
  lines := by
    simpa [Run.lines_eq, configurationLine_fields] using hrun.lines.cons h

theorem BreaksOff.cons (hrun : m.BreaksOff target rest k run) (hblank : ¬ IsBlankState state)
    (h : m.next? state c = some target) :
    m.BreaksOff state (c :: rest) (k + 1)
      { run with passed := ⟨state, c :: rest⟩ :: run.passed } where
  reads := forall_readsAt_succ hblank h hrun.reads
  verdict := by
    obtain ⟨current, letter, reason, rejection, hcurrent, hletter, hrest⟩ := hrun.verdict
    exact ⟨current, letter, reason, rejection, (stateAfter_succ h).trans hcurrent,
      by simpa using hletter, hrest⟩
  lines := by
    simpa [Run.lines_eq, configurationLine_fields] using hrun.lines.cons h

theorem completes_nil :
    m.Completes state [] (m.runFrom state []) where
  reads := by simp
  verdict := ⟨state, rfl, rfl⟩
  lines := shows_start (by simp [configurationLine_fields])

theorem breaksOff_zero {rejection : Rejection} (h : m.step state c = .error rejection) :
    m.BreaksOff state (c :: rest) 0 (m.runFrom state (c :: rest)) where
  reads := by simp
  verdict := by
    obtain ⟨reason, hblocks, hreason⟩ := exists_blocks_of_step h
    exact ⟨state, c, reason, rejection, rfl, rfl, hblocks, by rw [runFrom, h], hreason⟩
  lines := by
    rw [runFrom, h, Run.lines_eq]
    exact shows_start (by simp [configurationLine_fields])

/-- A run completes or breaks off at some letter. -/
theorem runFrom_cases (m : Finite) (state : String) (input : List Char) :
    m.Completes state input (m.runFrom state input) ∨
      ∃ k < input.length, m.BreaksOff state input k (m.runFrom state input) := by
  induction input generalizing state with
  | nil => exact .inl completes_nil
  | cons c rest ih =>
      cases hstep : m.step state c with
      | error rejection => exact .inr ⟨0, by simp, breaksOff_zero hstep⟩
      | ok target =>
          obtain ⟨hblank, hnext⟩ := of_step_eq_ok hstep
          rw [runFrom, hstep]
          rcases ih target with hrun | ⟨k, hk, hrun⟩
          · exact .inl (hrun.cons hblank hnext)
          · exact .inr ⟨k + 1, by simpa using hk, hrun.cons hblank hnext⟩

theorem BreaksOff.not_readsAt (hrun : m.BreaksOff state input k run) :
    ¬ m.ReadsAt state input k := by
  obtain ⟨current, c, reason, -, hcurrent, hc, hblocks, -⟩ := hrun.verdict
  exact hblocks.not_readsAt hcurrent hc

/-- A run completes when every letter can be read, and breaks off at the first letter that cannot
be read otherwise. -/
theorem recognize_exact (m : Finite) (input : String) :
    ((∀ i < input.toList.length, m.ReadsAt m.start input.toList i) →
      m.Completes m.start input.toList (m.recognize input)) ∧
    ((¬ ∀ i < input.toList.length, m.ReadsAt m.start input.toList i) →
      ∃ k < input.toList.length, m.BreaksOff m.start input.toList k (m.recognize input)) := by
  rcases m.runFrom_cases m.start input.toList with hrun | ⟨k, hk, hrun⟩
  · exact ⟨fun _ => hrun, fun hnot => absurd hrun.reads hnot⟩
  · exact ⟨fun hall => absurd (hall k hk) hrun.not_readsAt, fun _ => ⟨k, hk, hrun⟩⟩

/-- Tells whether the number of letters `a` is even; a letter `c` leads to a blank state. -/
def evenNumber : Finite where
  states := .ofList ["even", "odd", " "]
  alphabet := .ofList ['a', 'b', 'c']
  start := "even"
  accepting := .ofList ["even"]
  transitions := .ofList [
    ("even", Std.ExtTreeMap.ofList [('a', "odd"), ('b', "even"), ('c', " ")]),
    ("odd", Std.ExtTreeMap.ofList [('a', "even"), ('b', "odd")])]

theorem recognize_exact_evenNumber :
    (∀ i < 3, evenNumber.ReadsAt "even" ['a', 'b', 'a'] i) ∧
      evenNumber.Completes "even" ['a', 'b', 'a'] (evenNumber.recognize "aba") ∧
    (¬ ∀ i < 3, evenNumber.ReadsAt "even" ['b', 'c', 'a'] i) ∧
      ∃ k < 3, evenNumber.BreaksOff "even" ['b', 'c', 'a'] k (evenNumber.recognize "bca") := by
  have hall : ∀ i < 3, evenNumber.ReadsAt "even" ['a', 'b', 'a'] i := by decide +kernel
  have hnot : ¬ ∀ i < 3, evenNumber.ReadsAt "even" ['b', 'c', 'a'] i := by decide +kernel
  exact ⟨hall, (recognize_exact evenNumber "aba").1 hall, hnot,
    (recognize_exact evenNumber "bca").2 hnot⟩

example : (evenNumber.recognize "aba").lines Configuration.fields =
    ["(even, aba) ┠", "(odd, ba) ┠", "(odd, a) ┠", "(even, λ)"] := by decide +kernel

example : (evenNumber.recognize "bca").lines Configuration.fields =
    ["(even, bca) ┠", "(even, ca) ┠", "( , a) ┠"] := by decide +kernel

end FormalLanguages.Automaton.Finite
