import FormalLanguages.Proofs.Automaton.Validation
import Mathlib.Data.List.Nodup
import Mathlib.Data.List.Perm.Basic

/-!
Moves of pushdown automata. Any rule that applies allows a move, and an input is accepted when some
moves read it and come to an accepting state with an empty stack. A run picks its moves among these;
an automaton whose rules leave no choice is run along the only moves there are, so that it finds
every acceptance that does not move for too long without reading.
-/

namespace FormalLanguages.Automaton.Pushdown

/-- A move by a rule, with what it reads. -/
inductive Move (m : Pushdown) : Option Char → Configuration → Configuration → Prop where
  | silent {rule : Rule} {rest stack : List Char} (hrule : rule ∈ m.rules)
      (hinput : rule.input = none) :
      Move m none ⟨rule.source, rest, rule.top :: stack⟩
        ⟨rule.target, rest, rule.replacement.toList ++ stack⟩
  | read {rule : Rule} {c : Char} {rest stack : List Char} (hrule : rule ∈ m.rules)
      (hinput : rule.input = some c) :
      Move m (some c) ⟨rule.source, c :: rest, rule.top :: stack⟩
        ⟨rule.target, rest, rule.replacement.toList ++ stack⟩

/-- Moves from one configuration to another, with what each of them reads. -/
inductive Moves (m : Pushdown) : List (Option Char) → Configuration → Configuration → Prop where
  | refl (c : Configuration) : Moves m [] c c
  | head {input : Option Char} {inputs : List (Option Char)} {c d e : Configuration}
      (hmove : Move m input c d) (hmoves : Moves m inputs d e) : Moves m (input :: inputs) c e

/-- Moves lead from the start over the whole input to an accepting state and an empty stack, and no
more than `limit` of them in a row read nothing. -/
def AcceptsWithin (m : Pushdown) (limit : Nat) (input : List Char) : Prop :=
  ∃ inputs, ∃ state ∈ m.accepting,
    m.Moves inputs ⟨m.start, input, [m.startStack]⟩ ⟨state, [], []⟩ ∧
      ¬ List.replicate (limit + 1) none <:+: inputs

/-- Where a rule reads nothing, no rule for the same state and stack top reads a letter. -/
def IsUnmixed (m : Pushdown) : Prop :=
  ∀ rule ∈ m.rules, ∀ other ∈ m.rules, rule.source = other.source → rule.top = other.top →
    rule.input = none → other.input = none

variable {m : Pushdown} {rule other : Rule} {state : String} {next : Option Char} {top c : Char}
variable {rest stack : List Char} {limit moves : Nat} {inputs : List (Option Char)}
variable {passed : List Configuration} {d e : Configuration}

/-! ### The choice of a rule -/

theorem mem_candidates_iff : rule ∈ m.candidates state next top ↔
    rule ∈ m.rules ∧ rule.source = state ∧ rule.top = top ∧
      (rule.input = none ∨ rule.input = next) := by
  simp [candidates]

theorem mem_of_mem_preferred {rules : List Rule} (h : rule ∈ preferred rules) : rule ∈ rules := by
  simp only [preferred] at h
  split at h
  · exact h
  · exact List.mem_of_mem_filter h

theorem mem_candidates_of_select (h : m.select state next top = .ok rule) :
    rule ∈ m.candidates state next top := by
  unfold select at h
  split at h
  · exact absurd h (by simp)
  · split at h
    · exact absurd h (by simp)
    · rename_i only honly
      obtain rfl := Except.ok.inj h
      exact mem_of_mem_preferred (by simp [honly])
    · exact absurd h (by simp)

theorem nodup_candidates : (m.candidates state next top).Nodup :=
  List.Nodup.filter _ (m.rules.distinct_toList.imp fun hne heq => hne (by simp [heq]))

/-- A rule that has no competitor is selected, provided that the next letter is known. -/
theorem select_eq_ok (hnext : ∀ c, next = some c → c ∈ m.alphabet)
    (hrule : rule ∈ m.candidates state next top)
    (honly : ∀ other ∈ m.candidates state next top, other = rule) :
    m.select state next top = .ok rule := by
  have hcandidates : m.candidates state next top = [rule] := by
    refine List.perm_singleton.mp ((List.perm_ext_iff_of_nodup nodup_candidates (by simp)).mpr ?_)
    exact fun other => ⟨fun h => by simp [honly other h], fun h => by simp_all⟩
  have hpreferred : preferred [rule] = [rule] := by
    cases hinput : rule.input <;> simp [preferred, hinput]
  have hknown : next.filter (· ∉ m.alphabet) = none := by
    simpa [Option.filter_eq_none_iff] using hnext
  simp only [select, hknown, hcandidates, hpreferred]

/-- The rules of a valid automaton without mixed choices have no competitors. -/
theorem Valid.select_eq_ok (hvalid : m.Valid) (hunmixed : m.IsUnmixed) (hrule : rule ∈ m.rules)
    (hinput : rule.input = none ∨ rule.input = next)
    (hnext : ∀ c, next = some c → c ∈ m.alphabet) :
    m.select rule.source next rule.top = .ok rule := by
  refine Pushdown.select_eq_ok hnext (mem_candidates_iff.mpr ⟨hrule, rfl, rfl, hinput⟩) ?_
  intro other hother
  obtain ⟨hmem, hsource, htop, hother⟩ := mem_candidates_iff.mp hother
  refine hvalid.eq_of_trigger other hmem rule hrule ?_
  have hsame : other.input = rule.input := by
    cases hreads : rule.input with
    | none => exact hunmixed rule hrule other hmem hsource.symm htop.symm hreads
    | some c =>
        rcases hother with hnone | hother
        · have := hunmixed other hmem rule hrule hsource htop hnone
          simp [hreads] at this
        · simp_all
  simp [Rule.trigger, hsource, htop, hsame]

/-! ### Moves in a row that read nothing -/

/-- No more than `limit` moves in a row read nothing, where `moves` more such moves come before. -/
def SilentWithin (limit moves : Nat) (inputs : List (Option Char)) : Prop :=
  ¬ List.replicate (limit + 1) none <:+: List.replicate moves none ++ inputs

theorem silentWithin_none_iff :
    SilentWithin limit moves (none :: inputs) ↔ SilentWithin limit (moves + 1) inputs := by
  rw [SilentWithin, SilentWithin, List.replicate_succ' (n := moves), List.append_assoc,
    List.singleton_append]

theorem SilentWithin.lt (h : SilentWithin limit moves (none :: inputs)) : moves < limit := by
  by_contra hge
  have hsplit : List.replicate (moves + 1) (none : Option Char) =
      List.replicate (limit + 1) none ++ List.replicate (moves - limit) none := by
    rw [List.replicate_append_replicate]
    congr 1
    omega
  rw [silentWithin_none_iff, SilentWithin, hsplit, List.append_assoc] at h
  exact h List.infix_append_left

/-- A move that reads ends every row. -/
theorem silentWithin_some_iff (hmoves : moves ≤ limit) :
    SilentWithin limit moves (some c :: inputs) ↔ SilentWithin limit 0 inputs := by
  constructor
  · intro h hinside
    exact h (hinside.trans ((List.suffix_cons (some c) inputs).isInfix.trans
      List.infix_append_right))
  · intro h hinside
    rcases List.infix_append_iff_ne_nil.mp hinside with
      hbefore | hafter | ⟨_, last, -, hlast, heq, -, hafter⟩
    · have hlength := hbefore.length_le
      simp only [List.length_replicate] at hlength
      omega
    · rcases List.infix_cons_iff.mp hafter with hbegins | hinside
      · rw [List.replicate_succ, List.cons_prefix_cons] at hbegins
        exact absurd hbegins.1 (by simp)
      · exact h hinside
    · -- the letter would be part of the row
      have hmem : some c ∈ List.replicate (limit + 1) none := by
        cases last with
        | nil => exact absurd rfl hlast
        | cons first last =>
            obtain rfl := (List.cons_prefix_cons.mp hafter).1
            simp [heq]
      simp at hmem

/-! ### Runs -/

/-- The rule that is selected allows a move. -/
theorem move_of_select (h : m.select state rest.head? top = .ok rule) :
    ∃ left, rest = rule.input.toList ++ left ∧
      m.Move rule.input ⟨state, rest, top :: stack⟩
        ⟨rule.target, left, rule.replacement.toList ++ stack⟩ := by
  obtain ⟨hrule, rfl, rfl, hinput⟩ := mem_candidates_iff.mp (mem_candidates_of_select h)
  cases hreads : rule.input with
  | none => exact ⟨rest, rfl, .silent hrule hreads⟩
  | some c =>
      cases rest with
      | nil => simp [hreads] at hinput
      | cons d left =>
          obtain rfl : c = d := by simpa [hreads] using hinput
          exact ⟨left, rfl, .read hrule hreads⟩

/-- A run that accepts has moved all the way to an empty stack. -/
theorem exists_moves_of_runFrom (hmoves : moves ≤ limit)
    (h : (m.runFrom limit moves passed state rest stack).verdict = .ok ()) :
    ∃ inputs, ∃ final ∈ m.accepting, m.Moves inputs ⟨state, rest, stack⟩ ⟨final, [], []⟩ ∧
      SilentWithin limit moves inputs := by
  fun_induction runFrom m limit moves passed state rest stack with
  | case1 moves passed state rest =>
      split at h
      · rename_i hfinal
        obtain ⟨hstate, rfl⟩ := hfinal
        refine ⟨[], state, hstate, .refl _, fun hinside => ?_⟩
        have hlength := hinside.length_le
        simp only [List.length_append, List.length_replicate, List.length_nil] at hlength
        omega
      · exact absurd h (by simp)
  | case2 => exact absurd h (by simp)
  | case3 moves passed state top stack rule c head left hreads _ hselect ih =>
      obtain ⟨left', hleft, hmove⟩ := move_of_select hselect
      obtain ⟨inputs, final, hfinal, hrest, hsilent⟩ := ih (Nat.zero_le _) h
      rw [hreads] at hleft hmove
      obtain ⟨-, rfl⟩ := List.cons.inj hleft
      exact ⟨some c :: inputs, final, hfinal, .head hmove hrest,
        (silentWithin_some_iff hmoves).mpr hsilent⟩
  | case4 moves passed state top stack rule rest hlt hreads _ hselect ih =>
      obtain ⟨left, hleft, hmove⟩ := move_of_select hselect
      obtain ⟨inputs, final, hfinal, hrest, hsilent⟩ := ih hlt h
      cases hinput : rule.input with
      | some c => exact absurd (by simpa [hinput] using hleft) (hreads c c left hinput)
      | none =>
          rw [hinput] at hleft hmove
          obtain rfl : rest = left := hleft
          exact ⟨none :: inputs, final, hfinal, .head hmove hrest,
            silentWithin_none_iff.mpr hsilent⟩
  | case5 => exact absurd h (by simp)

/-- All that is read on the way to the end of the input is declared. -/
theorem Valid.declares_rest (hvalid : m.Valid) (h : m.Moves inputs d e) (hend : e.rest = []) :
    ∀ c ∈ d.rest, c ∈ m.alphabet := by
  induction h with
  | refl => simp [hend]
  | head hmove _ ih =>
      cases hmove with
      | silent => exact ih hend
      | read hrule hinput =>
          exact List.forall_mem_cons.mpr ⟨(hvalid.rule _ hrule).input _ hinput, ih hend⟩

/-- A run follows the only moves there are. -/
theorem Valid.runFrom_accepts (hvalid : m.Valid) (hunmixed : m.IsUnmixed)
    (h : m.Moves inputs d e) (hrest : e.rest = []) (hstack : e.stack = [])
    (hstate : e.state ∈ m.accepting) (hmoves : moves ≤ limit)
    (hsilent : SilentWithin limit moves inputs) :
    (m.runFrom limit moves passed d.state d.rest d.stack).verdict = .ok () := by
  induction h generalizing moves passed with
  | refl =>
      rw [hstack, hrest, runFrom]
      simp [hstate]
  | head hmove hlater ih =>
      have hknown := hvalid.declares_rest (.head hmove hlater) hrest
      cases hmove with
      | @silent rule rest stack hrule hinput =>
          have hselect : m.select rule.source rest.head? rule.top = .ok rule :=
            hvalid.select_eq_ok hunmixed hrule (.inl hinput)
              fun c hc => hknown c (List.mem_of_mem_head? hc)
          have hlt := hsilent.lt
          simp only [runFrom, hselect, hinput, hlt, if_true]
          exact ih hrest hstack hstate hlt (silentWithin_none_iff.mp hsilent)
      | @read rule c rest stack hrule hinput =>
          have hselect : m.select rule.source (some c) rule.top = .ok rule :=
            hvalid.select_eq_ok hunmixed hrule (.inr hinput) fun d hd => hknown d (by simp_all)
          simp only [runFrom, List.head?_cons, hselect, hinput]
          exact ih hrest hstack hstate (Nat.zero_le _) ((silentWithin_some_iff hmoves).mp hsilent)

/-! ### Recognition -/

/-- What is recognized is accepted by moves of the automaton. A valid automaton without mixed
choices recognizes all that moves accept which do not move for too long without reading. -/
theorem recognize_refines (m : Pushdown) (input : String) :
    ((m.recognize input).verdict = .ok () → m.AcceptsWithin lambdaLimit input.toList) ∧
    (m.validate = .ok () → m.IsUnmixed → m.AcceptsWithin lambdaLimit input.toList →
      (m.recognize input).verdict = .ok ()) := by
  constructor
  · intro h
    obtain ⟨inputs, state, hstate, hmoves, hsilent⟩ := exists_moves_of_runFrom (Nat.zero_le _) h
    exact ⟨inputs, state, hstate, hmoves, hsilent⟩
  · rintro hvalid hunmixed ⟨inputs, state, hstate, hmoves, hsilent⟩
    exact (validate_eq_ok_iff.mp hvalid).runFrom_accepts hunmixed hmoves rfl rfl hstate
      (Nat.zero_le _) hsilent

/-- Brackets are stacked and closed, a stop is read over the start of the stack, and this is taken
off without reading. -/
def bracketsThenStop : Pushdown where
  states := .ofList ["q0", "q1", "q2"]
  alphabet := .ofList ['(', ')', '.']
  start := "q0"
  accepting := .ofList ["q2"]
  stackAlphabet := .ofList ['(', 'Z']
  startStack := 'Z'
  rules := .ofList [Rule.mk "q0" (some '(') 'Z' "q0" "(Z", ⟨"q0", some '(', '(', "q0", "(("⟩,
    ⟨"q0", some ')', '(', "q0", ""⟩, ⟨"q0", some '.', 'Z', "q1", "Z"⟩, ⟨"q1", none, 'Z', "q2", ""⟩]

theorem recognize_refines_bracketsThenStop :
    bracketsThenStop.validate = .ok () ∧ bracketsThenStop.IsUnmixed ∧
      bracketsThenStop.AcceptsWithin lambdaLimit "().".toList ∧
      (bracketsThenStop.recognize "().").verdict = .ok () := by
  have hvalid : bracketsThenStop.validate = .ok () := eq_ok_of_toOption (by decide +kernel)
  have hall : ∀ rule ∈ bracketsThenStop.rules.toList, ∀ other ∈ bracketsThenStop.rules.toList,
      rule.source = other.source → rule.top = other.top → rule.input = none →
        other.input = none := by decide +kernel
  have hunmixed : bracketsThenStop.IsUnmixed := fun rule hrule other hother =>
    hall rule (Std.ExtTreeSet.mem_toList.mpr hrule) other (Std.ExtTreeSet.mem_toList.mpr hother)
  have hopen : bracketsThenStop.Move (some '(') ⟨"q0", ['(', ')', '.'], ['Z']⟩
      ⟨"q0", [')', '.'], ['(', 'Z']⟩ :=
    .read (show Rule.mk "q0" (some '(') 'Z' "q0" "(Z" ∈ bracketsThenStop.rules by decide +kernel)
      rfl
  have hclose : bracketsThenStop.Move (some ')') ⟨"q0", [')', '.'], ['(', 'Z']⟩
      ⟨"q0", ['.'], ['Z']⟩ :=
    .read (show Rule.mk "q0" (some ')') '(' "q0" "" ∈ bracketsThenStop.rules by decide +kernel) rfl
  have hstop : bracketsThenStop.Move (some '.') ⟨"q0", ['.'], ['Z']⟩ ⟨"q1", [], ['Z']⟩ :=
    .read (show Rule.mk "q0" (some '.') 'Z' "q1" "Z" ∈ bracketsThenStop.rules by decide +kernel) rfl
  have hend : bracketsThenStop.Move none ⟨"q1", [], ['Z']⟩ ⟨"q2", [], []⟩ :=
    .silent (show Rule.mk "q1" none 'Z' "q2" "" ∈ bracketsThenStop.rules by decide +kernel) rfl
  have haccepts : bracketsThenStop.AcceptsWithin lambdaLimit "().".toList := by
    refine ⟨[some '(', some ')', some '.', none], "q2", by decide +kernel,
      .head hopen <| .head hclose <| .head hstop <| .head hend <| .refl _, fun hinside => ?_⟩
    have hlength := hinside.length_le
    rw [List.length_replicate] at hlength
    exact absurd hlength (by decide)
  exact ⟨hvalid, hunmixed, haccepts,
    (recognize_refines bracketsThenStop "().").2 hvalid hunmixed haccepts⟩

end FormalLanguages.Automaton.Pushdown
