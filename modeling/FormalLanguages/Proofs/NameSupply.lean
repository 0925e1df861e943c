import FormalLanguages.Grammar.FreshName
import FormalLanguages.Proofs.Loops
import Mathlib.Data.List.Nodup

/-!
What a supply of names hands out. A base has one candidate for every number of primes, and all of
them differ; so only as many of them are taken as there are names in use, and the search for a free
one rests at the first that is. Every name that is handed out is in use from then on, which keeps
the names distinct over any sequence of calls, whatever their bases are.
-/

namespace FormalLanguages

/-! ### Candidates -/

/-- The base with an underscore for every character that no name may have, and some primes. -/
def candidate (base : String) (primes : Nat) : String :=
  String.ofList ((base.toList.map fun c => if isReserved c || isNameSeparator c then '_' else c) ++
    List.replicate primes '\'')

theorem candidate_zero (base : String) : candidate base 0 = sanitize base := by
  simp [candidate, sanitize]

theorem candidate_succ (base : String) (primes : Nat) :
    candidate base (primes + 1) = candidate base primes ++ "'" := by
  apply String.toList_injective
  simp [candidate, List.replicate_succ']

@[simp] theorem length_candidate (base : String) (primes : Nat) :
    (candidate base primes).length = base.length + primes := by
  simp [candidate, String.length_ofList, String.length_toList]

theorem candidate_injective (base : String) : Function.Injective (candidate base) := by
  intro primes primes' h
  have hlength := congrArg String.length h
  simpa using hlength

theorem legible_of_mem_candidate {base : String} {primes : Nat} {c : Char}
    (h : c ∈ (candidate base primes).toList) :
    isReserved c = false ∧ isNameSeparator c = false := by
  simp only [candidate, String.toList_ofList, List.mem_append, List.mem_map,
    List.mem_replicate] at h
  rcases h with ⟨letter, -, rfl⟩ | ⟨-, rfl⟩
  · split
    · decide
    · simp_all
  · decide

variable {taken : Std.ExtTreeSet String} {base : String}

/-- Where the first candidates of a base are all taken, at least as many names are in use. -/
theorem le_size_of_candidates_mem {n : Nat} (h : ∀ primes < n, candidate base primes ∈ taken) :
    n ≤ taken.size := by
  have hnodup : ((List.range n).map (candidate base)).Nodup :=
    List.nodup_range.map (candidate_injective base)
  have hsubset : (List.range n).map (candidate base) ⊆ taken.toList := by
    intro name hname
    obtain ⟨primes, hprimes, rfl⟩ := List.mem_map.mp hname
    exact Std.ExtTreeSet.mem_toList.mpr (h primes (List.mem_range.mp hprimes))
  have hlength := hnodup.length_le_of_subset hsubset
  simpa using hlength

/-! ### The search -/

/-- One round of the search for a free name. -/
def prime? (taken : Std.ExtTreeSet String) (name : String) : Option String :=
  if name ∈ taken then some (name ++ "'") else none

theorem prime?_eq_none_iff {name : String} : prime? taken name = none ↔ name ∉ taken := by
  simp [prime?]

theorem prime?_eq_some_iff {name next : String} :
    prime? taken name = some next ↔ name ∈ taken ∧ name ++ "'" = next := by
  simp [prime?]

theorem exists_rests_primeUntilFree (taken : Std.ExtTreeSet String) (name : String) :
    ∃ n, Rests (prime? taken) n name (primeUntilFree taken name) := by
  fun_induction primeUntilFree taken name with
  | case1 name htaken ih =>
      obtain ⟨n, hrests⟩ := ih
      exact ⟨n + 1, .round (prime?_eq_some_iff.mpr ⟨htaken, rfl⟩) hrests⟩
  | case2 name hfree => exact ⟨0, .here (prime?_eq_none_iff.mpr hfree)⟩

/-- A search from a candidate passes over the next ones as long as they are taken. -/
theorem Rests.candidates {n primes : Nat} {name last : String}
    (h : Rests (prime? taken) n name last) (hname : name = candidate base primes) :
    last = candidate base (primes + n) ∧ last ∉ taken ∧
      ∀ k < n, candidate base (primes + k) ∈ taken := by
  induction h generalizing primes with
  | here hnext => exact ⟨hname, prime?_eq_none_iff.mp hnext, by simp⟩
  | @round n name next last hnext _ ih =>
      obtain ⟨htaken, hprimed⟩ := prime?_eq_some_iff.mp hnext
      have hsucc : next = candidate base (primes + 1) := by
        rw [candidate_succ, ← hname, hprimed]
      obtain ⟨hlast, hfree, hpassed⟩ := ih hsucc
      refine ⟨by rw [hlast, Nat.add_right_comm, Nat.add_assoc], hfree, fun k hk => ?_⟩
      cases k with
      | zero => rwa [Nat.add_zero, ← hname]
      | succ k =>
          have hcandidate := hpassed k (by omega)
          rwa [Nat.add_right_comm, Nat.add_assoc] at hcandidate

/-- The base is free with so many primes and with no fewer, and the search finds this out. -/
structure LeastFree (taken : Std.ExtTreeSet String) (base : String) (primes : Nat) : Prop where
  not_mem : candidate base primes ∉ taken
  mem_of_lt : ∀ fewer < primes, candidate base fewer ∈ taken
  rests : Rests (prime? taken) primes (sanitize base) (candidate base primes)
  le_size : primes ≤ taken.size

namespace NameSupply

variable {existing : Std.ExtTreeSet String} {supply : NameSupply}

/-! ### One call -/

theorem exists_leastFree (supply : NameSupply) (base : String) :
    ∃ primes, LeastFree supply.taken base primes ∧
      (supply.fresh base).1 = candidate base primes := by
  obtain ⟨primes, hrests⟩ := exists_rests_primeUntilFree supply.taken (sanitize base)
  obtain ⟨hname, hfree, hpassed⟩ := hrests.candidates (candidate_zero base).symm
  simp only [Nat.zero_add] at hname hpassed
  rw [hname] at hfree hrests
  exact ⟨primes, ⟨hfree, hpassed, hrests, le_size_of_candidates_mem hpassed⟩, hname⟩

/-- The supply has started with the existing names in use and has handed out all others. -/
structure GrownFrom (existing : Std.ExtTreeSet String) (supply : NameSupply) : Prop where
  mem_taken : ∀ name, name ∈ supply.taken ↔ name ∈ existing ∨ name ∈ supply.issued
  nodup : supply.issued.Nodup
  not_existing : ∀ name ∈ supply.issued, name ∉ existing
  legible : ∀ name ∈ supply.issued, ∀ c ∈ name.toList,
    isReserved c = false ∧ isNameSeparator c = false

theorem grownFrom_start (existing : Std.ExtTreeSet String) :
    (NameSupply.mk existing []).GrownFrom existing :=
  ⟨by simp, List.nodup_nil, by simp, by simp⟩

theorem GrownFrom.fresh (h : supply.GrownFrom existing) (base : String) :
    (supply.fresh base).2.GrownFrom existing := by
  have hnew := supply.fresh_not_mem_taken base
  rw [h.mem_taken, not_or] at hnew
  constructor
  · intro name
    rw [mem_fresh_taken, h.mem_taken, fresh_issued, List.mem_append, List.mem_singleton, or_comm,
      or_assoc]
  · rw [fresh_issued, ← List.concat_eq_append]
    exact h.nodup.concat hnew.2
  · intro name hissued
    rw [fresh_issued, List.mem_append, List.mem_singleton] at hissued
    rcases hissued with hold | rfl
    · exact h.not_existing name hold
    · exact hnew.1
  · intro name hissued c hc
    rw [fresh_issued, List.mem_append, List.mem_singleton] at hissued
    rcases hissued with hold | rfl
    · exact h.legible name hold c hc
    · obtain ⟨primes, -, hname⟩ := supply.exists_leastFree base
      rw [hname] at hc
      exact legible_of_mem_candidate hc

/-! ### All calls -/

theorem freshAll_cons (supply : NameSupply) (base : String) (bases : List String) :
    supply.freshAll (base :: bases) =
      ((supply.fresh base).1 :: ((supply.fresh base).2.freshAll bases).1,
        ((supply.fresh base).2.freshAll bases).2) := rfl

@[simp] theorem length_freshAll (supply : NameSupply) (bases : List String) :
    (supply.freshAll bases).1.length = bases.length := by
  induction bases generalizing supply with
  | nil => rfl
  | cons base bases ih => simp [freshAll_cons, ih]

theorem freshAll_issued (supply : NameSupply) (bases : List String) :
    (supply.freshAll bases).2.issued = supply.issued ++ (supply.freshAll bases).1 := by
  induction bases generalizing supply with
  | nil => simp [freshAll]
  | cons base bases ih => simp [freshAll_cons, ih]

theorem GrownFrom.freshAll (h : supply.GrownFrom existing) (bases : List String) :
    (supply.freshAll bases).2.GrownFrom existing := by
  induction bases generalizing supply with
  | nil => exact h
  | cons base bases ih => exact ih (h.fresh base)

/-- The first calls give the same names, whatever calls follow. -/
theorem take_freshAll (supply : NameSupply) (bases : List String) (i : Nat) :
    (supply.freshAll bases).1.take i = (supply.freshAll (bases.take i)).1 := by
  induction bases generalizing supply i with
  | nil => simp [freshAll]
  | cons base bases ih =>
      cases i with
      | zero => rfl
      | succ i => simp [freshAll_cons, ih]

/-- Every call is made on the supply that the calls before it have left. -/
theorem getElem?_freshAll (supply : NameSupply) (bases : List String) (i : Nat) :
    (supply.freshAll bases).1[i]? =
      bases[i]?.map fun base => ((supply.freshAll (bases.take i)).2.fresh base).1 := by
  induction bases generalizing supply i with
  | nil => rfl
  | cons base bases ih =>
      cases i with
      | zero => rfl
      | succ i => simp [freshAll_cons, ih]

/-- A supply that starts with some names in use hands out one name for each base, and lists these
names in the order of the calls. They are distinct, none of them was in use and none has a character
that no name may have. Each is its base with such characters replaced and with the fewest primes
that make it free beside the names in use at first and those handed out so far; the search for it
rests after no more rounds than there are such names. -/
theorem freshAll_exact (existing : Std.ExtTreeSet String) (bases : List String) :
    ∃ names last, (NameSupply.mk existing []).freshAll bases = (names, last) ∧
      last.issued = names ∧ names.length = bases.length ∧ names.Nodup ∧
      (∀ name ∈ names, name ∉ existing ∧
        ∀ c ∈ name.toList, isReserved c = false ∧ isNameSeparator c = false) ∧
      ∀ i base, bases[i]? = some base → ∃ supply primes,
        (NameSupply.mk existing []).freshAll (bases.take i) = (names.take i, supply) ∧
        supply.issued = names.take i ∧
        (∀ name, name ∈ supply.taken ↔ name ∈ existing ∨ name ∈ names.take i) ∧
        LeastFree supply.taken base primes ∧ names[i]? = some (candidate base primes) := by
  have hgrown (calls : List String) := (grownFrom_start existing).freshAll calls
  have hissued (calls : List String) := freshAll_issued (NameSupply.mk existing []) calls
  simp only [List.nil_append] at hissued
  refine ⟨_, _, rfl, hissued bases, length_freshAll _ bases, ?_, fun name hname => ?_,
    fun i base hbase => ?_⟩
  · rw [← hissued]
    exact (hgrown bases).nodup
  · rw [← hissued] at hname
    exact ⟨(hgrown bases).not_existing name hname, (hgrown bases).legible name hname⟩
  · obtain ⟨primes, hleast, hname⟩ :=
      ((NameSupply.mk existing []).freshAll (bases.take i)).2.exists_leastFree base
    rw [take_freshAll, getElem?_freshAll, hbase, Option.map_some, hname]
    refine ⟨_, primes, rfl, hissued _, fun name => ?_, hleast, rfl⟩
    rw [(hgrown _).mem_taken, hissued]

-- two bases that become the same text, and one whose first two candidates are declared
theorem freshAll_exact_clashingBases :
    ["Sa", "S a", "S_a"][2]? = some "S_a" ∧
    ∃ last, (NameSupply.mk (.ofList ["S", "Sa", "Sa'"]) []).freshAll ["Sa", "S a", "S_a"] =
        (["Sa''", "S_a", "S_a'"], last) ∧
      last.issued = ["Sa''", "S_a", "S_a'"] ∧
      "Sa''" ∉ Std.ExtTreeSet.ofList ["S", "Sa", "Sa'"] ∧
      ∃ supply, (NameSupply.mk (.ofList ["S", "Sa", "Sa'"]) []).freshAll ["Sa", "S a"] =
          (["Sa''", "S_a"], supply) ∧
        LeastFree supply.taken "S_a" 1 := by
  have hnames : ((NameSupply.mk (.ofList ["S", "Sa", "Sa'"]) []).freshAll
      ["Sa", "S a", "S_a"]).1 = ["Sa''", "S_a", "S_a'"] := by decide +kernel
  obtain ⟨names, last, hcalls, hissued, -, -, hnew, hcall⟩ :=
    freshAll_exact (.ofList ["S", "Sa", "Sa'"]) ["Sa", "S a", "S_a"]
  obtain rfl : names = ["Sa''", "S_a", "S_a'"] := by rw [← hnames, hcalls]
  obtain ⟨supply, primes, hfirst, -, -, hleast, hname⟩ := hcall 2 "S_a" rfl
  obtain rfl : primes = 1 := by
    have hone : candidate "S_a" 1 = "S_a'" := by decide +kernel
    apply candidate_injective "S_a"
    rw [hone]
    exact (Option.some.inj hname).symm
  exact ⟨rfl, last, hcalls, hissued, (hnew "Sa''" (by simp)).1, supply, hfirst, hleast⟩

end NameSupply

end FormalLanguages
