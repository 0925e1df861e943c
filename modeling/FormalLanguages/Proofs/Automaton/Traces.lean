import FormalLanguages.Proofs.Automaton.Selection

/-!
Traces of pushdown automata. Each configuration of a run follows from the one before by the rule
that applies there, until the stack is empty, no rule applies, or the limit on moves that read
nothing is reached. Whatever the rules are, this happens within a number of moves that the length of
the input bounds, and the marks on the lines say in which of these ways.
-/

namespace FormalLanguages.Automaton.Pushdown

/-- What a rule makes of a configuration: it reads its letter, if it has one, and puts its
replacement in the place of the stack top. -/
def Rule.apply (rule : Rule) (c : Configuration) : Configuration where
  state := rule.target
  rest := c.rest.drop rule.input.toList.length
  stack := rule.replacement.toList ++ c.stack.tail

/-- The rule that applies in the first configuration leads to the second one. -/
def Follows (m : Pushdown) (c d : Configuration) : Prop :=
  ∃ rule, m.Selects c rule ∧ rule.apply c = d

/-- The configurations from one on up to another one, each of which follows the one before. -/
inductive Trail (m : Pushdown) : Configuration → List Configuration → Configuration → Prop where
  | refl (c : Configuration) : Trail m c [] c
  | head {c d e : Configuration} {passed : List Configuration} (hfollows : m.Follows c d)
      (htrail : Trail m d passed e) : Trail m c (c :: passed) e

/-- As many of the last configurations have the same letters left to read. -/
def SilentRow (moves : Nat) (passed : List Configuration) (rest : List Char) : Prop :=
  ∃ row, row <:+ passed ∧ row.length = moves ∧ ∀ c ∈ row, c.rest = rest

/-- How a run ends in a configuration after others. -/
inductive Ends (m : Pushdown) (limit : Nat) (passed : List Configuration) (last : Configuration) :
    Run Configuration → Prop where
  /-- The stack is empty, and the run rests. -/
  | empty (hstack : last.stack = []) :
      Ends m limit passed last ⟨passed, some last,
        if last.state ∈ m.accepting ∧ last.rest = [] then .ok () else .error .notAccepted⟩
  /-- The choice of a rule fails. -/
  | stuck {top : Char} {rejection : Rejection} (htop : last.stack.head? = some top)
      (hselect : m.select last.state last.rest.head? top = .error rejection) :
      Ends m limit passed last ⟨passed ++ [last], none, .error rejection⟩
  /-- There would be too many moves in a row that read nothing. -/
  | endless {rule : Rule} (hrule : m.Selects last rule) (hinput : rule.input = none)
      (hrow : SilentRow limit passed last.rest) :
      Ends m limit passed last ⟨passed ++ [last], none, .error (.endlessLambda limit)⟩

variable {m : Pushdown} {rule : Rule} {c d : Configuration} {state : String} {top : Char}
variable {rest stack : List Char} {limit moves : Nat} {passed : List Configuration}

theorem SilentRow.push (h : SilentRow moves passed c.rest) :
    SilentRow (moves + 1) (passed ++ [c]) c.rest := by
  obtain ⟨row, ⟨before, rfl⟩, hlength, hrest⟩ := h
  refine ⟨row ++ [c], ⟨before, by simp⟩, by simp [hlength], ?_⟩
  simpa [or_imp, forall_and] using hrest

theorem silentRow_zero : SilentRow 0 passed rest :=
  ⟨[], List.nil_suffix, rfl, by simp⟩

/-- A rule that applies where it finds no letter to read reads nothing. -/
theorem Selects.input_eq_none (h : m.Selects c rule)
    (hreads : ∀ letter left, rule.input = some letter → c.rest ≠ letter :: left) :
    rule.input = none := by
  cases hinput : rule.input with
  | none => rfl
  | some letter =>
      have hhead : c.rest.head? = some letter := by simpa [hinput, eq_comm] using h.input
      obtain ⟨left, hrest⟩ := List.head?_eq_some_iff.mp hhead
      exact absurd hrest (hreads letter left hinput)

/-- From where a run goes on it comes to an end, within the moves that are left. -/
theorem exists_trail (hmoves : moves ≤ limit) (hrow : SilentRow moves passed.reverse rest) :
    ∃ trail last, m.Trail ⟨state, rest, stack⟩ trail last ∧
      trail.length ≤ movesLeft limit moves rest ∧
      m.Ends limit (passed.reverse ++ trail) last
        (m.runFrom limit moves passed state rest stack) := by
  fun_induction runFrom m limit moves passed state rest stack with
  | case1 moves passed state rest =>
      refine ⟨[], _, .refl _, Nat.zero_le _, ?_⟩
      rw [List.append_nil]
      exact .empty rfl
  | case2 moves before state rest top stack passed stuck rejection hselect =>
      refine ⟨[], _, .refl _, Nat.zero_le _, ?_⟩
      rw [List.append_nil]
      simp only [stuck, passed, List.reverse_cons]
      exact .stuck rfl hselect
  | case3 moves before state top stack rule letter head left hreads passed hselect ih =>
      have hrule : m.Selects ⟨state, head :: left, top :: stack⟩ rule :=
        (select_eq_ok_iff rfl).mp hselect
      obtain ⟨trail, last, htrail, hlength, hends⟩ := ih (Nat.zero_le _) silentRow_zero
      refine ⟨⟨state, head :: left, top :: stack⟩ :: trail, last, .head ⟨rule, hrule, ?_⟩ htrail,
        ?_, ?_⟩
      · simp [Rule.apply, hreads]
      · have hless := movesLeft_cons_lt limit moves head left
        simp only [List.length_cons]
        omega
      · simpa [passed] using hends
  | case4 moves before state top stack rule rest hlt hreads passed hselect ih =>
      have hrule : m.Selects ⟨state, rest, top :: stack⟩ rule := (select_eq_ok_iff rfl).mp hselect
      have hinput : rule.input = none :=
        hrule.input_eq_none fun letter left => hreads letter letter left
      have hrow' : SilentRow (moves + 1) passed.reverse rest := by
        simpa [passed] using SilentRow.push (c := ⟨state, rest, top :: stack⟩) hrow
      obtain ⟨trail, last, htrail, hlength, hends⟩ := ih hlt hrow'
      refine ⟨⟨state, rest, top :: stack⟩ :: trail, last, .head ⟨rule, hrule, ?_⟩ htrail, ?_, ?_⟩
      · simp [Rule.apply, hinput]
      · have hless : movesLeft limit (moves + 1) rest < movesLeft limit moves rest :=
          movesLeft_succ_lt hlt
        simp only [List.length_cons]
        omega
      · simpa [passed] using hends
  | case5 moves before state top stack rule rest hnot hreads passed stuck hselect =>
      have hrule : m.Selects ⟨state, rest, top :: stack⟩ rule := (select_eq_ok_iff rfl).mp hselect
      have hinput : rule.input = none :=
        hrule.input_eq_none fun letter left => hreads letter letter left
      obtain rfl : moves = limit := by omega
      refine ⟨[], _, .refl _, Nat.zero_le _, ?_⟩
      rw [List.append_nil]
      simp only [stuck, passed, List.reverse_cons]
      exact .endless hrule hinput hrow

theorem exists_trail_recognize (m : Pushdown) (input : String) : ∃ passed last,
    m.Trail ⟨m.start, input.toList, [m.startStack]⟩ passed last ∧
      passed.length ≤ movesLeft lambdaLimit 0 input.toList ∧
      m.Ends lambdaLimit passed last (m.recognize input) := by
  rw [recognize]
  exact exists_trail (Nat.zero_le _) (show SilentRow 0 [].reverse _ from silentRow_zero)

/-! ### Lines -/

/-- The line for a configuration: the state, the letters left to read and the stack. -/
def Configuration.line (c : Configuration) : String :=
  "(" ++ c.state ++ ", " ++ orLambda c.rest ++ ", " ++ orLambda c.stack ++ ")"

/-- No rule applies any more, or one that reads nothing does after `limit` moves in a row that have
read nothing. -/
def GivesUp (m : Pushdown) (limit : Nat) (passed : List Configuration) (last : Configuration) :
    Prop :=
  (∀ rule, ¬ m.Selects last rule) ∨
    ∃ rule, m.Selects last rule ∧ rule.input = none ∧ SilentRow limit passed last.rest

theorem lines_eq (run : Run Configuration) : run.lines Configuration.fields =
    run.passed.map (·.line ++ " ┠") ++ run.final.toList.map Configuration.line :=
  run.lines_eq Configuration.fields

theorem ne_notAccepted_of_select {state : String} {next : Option Char} {rejection : Rejection}
    (h : m.select state next top = .error rejection) : rejection ≠ .notAccepted := by
  rintro rfl
  rcases m.select_cases state next top with
    ⟨_, -, -, h'⟩ | ⟨-, ⟨-, h'⟩ | ⟨_, -, h'⟩ | ⟨_, -, _, -, -, h'⟩⟩ <;> simp [h] at h'

/-- A run rests with an empty stack, and gives up with any other. -/
theorem Ends.rests_or_givesUp {last : Configuration} {run : Run Configuration}
    (h : m.Ends limit passed last run) :
    last.stack = [] ∧ run = ⟨passed, some last,
        if last.state ∈ m.accepting ∧ last.rest = [] then .ok () else .error .notAccepted⟩ ∨
      last.stack ≠ [] ∧ m.GivesUp limit passed last ∧ ∃ rejection, rejection ≠ .notAccepted ∧
        run = ⟨passed ++ [last], none, .error rejection⟩ := by
  have hne (htop : last.stack.head? ≠ none) : last.stack ≠ [] :=
    fun hstack => htop (by rw [hstack, List.head?_nil])
  cases h with
  | empty hstack => exact .inl ⟨hstack, rfl⟩
  | stuck htop hselect =>
      have hnone (rule : Rule) : ¬ m.Selects last rule := by
        intro hrule
        simp [(select_eq_ok_iff htop).mpr hrule] at hselect
      exact .inr ⟨hne (by simp [htop]), .inl hnone, _, ne_notAccepted_of_select hselect, rfl⟩
  | endless hrule hinput hrow =>
      exact .inr ⟨hne (by simp [hrule.top]), .inr ⟨_, hrule, hinput, hrow⟩, _, by simp, rfl⟩

/-- Every run ends, after a number of lines that the length of the input bounds. Its lines show
the start and what follows from it by the rules that apply. A run that ends with an empty stack
rests, and its last line alone has no step marker. Any other run gives up, and all its lines have
one. -/
theorem recognize_traces (m : Pushdown) (input : String) :
    ∃ passed last,
      m.Trail ⟨m.start, input.toList, [m.startStack]⟩ passed last ∧
      ((m.recognize input).lines Configuration.fields).length ≤
        (input.toList.length + 1) * 10000 + input.toList.length + 1 ∧
      (last.stack = [] ∧
          (m.recognize input).verdict = (if last.state ∈ m.accepting ∧ last.rest = [] then .ok ()
            else .error .notAccepted) ∧
          (m.recognize input).lines Configuration.fields =
            passed.map (·.line ++ " ┠") ++ [last.line] ∨
        last.stack ≠ [] ∧ m.GivesUp 10000 passed last ∧
          (∃ rejection, rejection ≠ .notAccepted ∧
            (m.recognize input).verdict = .error rejection) ∧
          (m.recognize input).lines Configuration.fields =
            (passed ++ [last]).map (·.line ++ " ┠")) := by
  obtain ⟨passed, last, htrail, hlength, hends⟩ := m.exists_trail_recognize input
  have hcount : passed.length + 1 ≤
      (input.toList.length + 1) * 10000 + input.toList.length + 1 := by
    simp only [movesLeft, lambdaLimit] at hlength
    omega
  refine ⟨passed, last, htrail, ?_⟩
  rcases hends.rests_or_givesUp with ⟨hstack, hrun⟩ | ⟨hstack, hgives, rejection, hne, hrun⟩
  · rw [hrun, lines_eq]
    refine ⟨?_, .inl ⟨hstack, rfl, rfl⟩⟩
    rwa [List.length_append, List.length_map]
  · rw [hrun, lines_eq, Option.toList_none, List.map_nil, List.append_nil]
    refine ⟨?_, .inr ⟨hstack, hgives, ⟨rejection, hne, rfl⟩, rfl⟩⟩
    rwa [List.length_map, List.length_append]

example : (bracketsThenStop.recognize "().").lines Configuration.fields =
    ["(q0, ()., Z) ┠", "(q0, )., (Z) ┠", "(q0, ., Z) ┠", "(q1, λ, Z) ┠", "(q2, λ, λ)"] := by
  decide +kernel

end FormalLanguages.Automaton.Pushdown
