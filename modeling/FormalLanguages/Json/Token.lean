/-!
Tokens of JSON texts: punctuation, literals, numbers and strings, with the white space between them
dropped. A string is read into pieces first, because an escape may stand for half a character.
-/

namespace FormalLanguages.Json

/-- A part of a string: a character, or the 16-bit unit of an escape. -/
inductive Piece where
  | char (c : Char)
  | unit (n : Nat)
  deriving DecidableEq, Repr

inductive Token where
  | openArray
  | closeArray
  | openObject
  | closeObject
  | comma
  | colon
  | null
  | bool (value : Bool)
  | number
  | string (pieces : List Piece)
  deriving DecidableEq, Repr

/-- The value of a hexadecimal digit. -/
def hexDigit? (c : Char) : Option Nat :=
  if '0' ≤ c ∧ c ≤ '9' then some (c.toNat - '0'.toNat)
  else if 'a' ≤ c ∧ c ≤ 'f' then some (c.toNat - 'a'.toNat + 10)
  else if 'A' ≤ c ∧ c ≤ 'F' then some (c.toNat - 'A'.toNat + 10)
  else none

def hexUnit? (a b c d : Char) : Option Nat := do
  return (((← hexDigit? a) * 16 + (← hexDigit? b)) * 16 + (← hexDigit? c)) * 16 + (← hexDigit? d)

/-- The character of an escape of two characters, given the second one. -/
def shortEscape? : Char → Option Char
  | '"' => some '"'
  | '\\' => some '\\'
  | '/' => some '/'
  | 'b' => some '\x08'
  | 'f' => some '\x0c'
  | 'n' => some '\n'
  | 'r' => some '\r'
  | 't' => some '\t'
  | _ => none

/-- The pieces of a string up to its closing quote, and the text after it. -/
def scanString : List Char → Option (List Piece × List Char)
  | [] => none
  | '"' :: text => some ([], text)
  | '\\' :: 'u' :: a :: b :: c :: d :: text => do
    let n ← hexUnit? a b c d
    let (pieces, rest) ← scanString text
    return (.unit n :: pieces, rest)
  | '\\' :: e :: text => do
    let c ← shortEscape? e
    let (pieces, rest) ← scanString text
    return (.char c :: pieces, rest)
  | c :: text =>
    if c.toNat < 0x20 || c = '\\' then none
    else do
      let (pieces, rest) ← scanString text
      return (.char c :: pieces, rest)

/-- Drops the digits at the front; there must be one. -/
def scanDigits : List Char → Option (List Char)
  | c :: text => if c.isDigit then some (text.dropWhile Char.isDigit) else none
  | [] => none

/-- Drops a decimal point and its digits, if there are any. -/
def scanFraction : List Char → Option (List Char)
  | '.' :: text => scanDigits text
  | text => some text

/-- Drops an exponent, if there is any. -/
def scanExponent : List Char → Option (List Char)
  | c :: text =>
    if c = 'e' || c = 'E' then
      match text with
      | '+' :: text => scanDigits text
      | '-' :: text => scanDigits text
      | text => scanDigits text
    else some (c :: text)
  | [] => some []

/-- Drops the digits before the point: `0` alone, or digits that do not start with it. -/
def scanWhole : List Char → Option (List Char)
  | '0' :: text => some text
  | text => scanDigits text

/-- Drops the number at the front. -/
def scanNumber : List Char → Option (List Char)
  | '-' :: text => scanWhole text >>= scanFraction >>= scanExponent
  | text => scanWhole text >>= scanFraction >>= scanExponent

/-- The literals, with their tokens. -/
def literals : List (List Char × Token) :=
  [(['n', 'u', 'l', 'l'], .null), (['t', 'r', 'u', 'e'], .bool true),
    (['f', 'a', 'l', 's', 'e'], .bool false)]

def punctuation? : Char → Option Token
  | '[' => some .openArray
  | ']' => some .closeArray
  | '\x7b' => some .openObject
  | '\x7d' => some .closeObject
  | ',' => some .comma
  | ':' => some .colon
  | _ => none

def isSpace (c : Char) : Bool :=
  c == ' ' || c == '\n' || c == '\r' || c == '\t'

/-- The first token of a text that starts with `c`, and the text after it. -/
def scanToken (c : Char) (text : List Char) : Option (Token × List Char) :=
  match punctuation? c with
  | some token => some (token, text)
  | none =>
    if c = '"' then (scanString text).map fun (pieces, rest) => (.string pieces, rest)
    else
      match literals.find? fun literal => literal.1.isPrefixOf (c :: text) with
      | some literal => some (literal.2, text.drop (literal.1.length - 1))
      | none => (scanNumber (c :: text)).map fun rest => (.number, rest)

theorem length_scanString {text rest : List Char} {pieces : List Piece}
    (h : scanString text = some (pieces, rest)) : rest.length ≤ text.length := by
  fun_induction scanString text generalizing pieces with
  | case1 => simp at h
  | case2 text => simp_all
  | case3 a b c d text ih =>
    simp only [Option.bind_eq_bind, Option.bind_eq_some_iff] at h
    obtain ⟨n, _, ⟨tail, after⟩, hscan, hpair⟩ := h
    obtain ⟨rfl, rfl⟩ : _ ∧ after = rest := by simpa using hpair
    have := ih hscan
    simp only [List.length_cons]
    omega
  | case4 e text _ ih =>
    simp only [Option.bind_eq_bind, Option.bind_eq_some_iff] at h
    obtain ⟨n, _, ⟨tail, after⟩, hscan, hpair⟩ := h
    obtain ⟨rfl, rfl⟩ : _ ∧ after = rest := by simpa using hpair
    have := ih hscan
    simp only [List.length_cons]
    omega
  | case5 => simp at h
  | case6 c text _ _ _ _ ih =>
    simp only [Option.bind_eq_bind, Option.bind_eq_some_iff] at h
    obtain ⟨⟨tail, after⟩, hscan, hpair⟩ := h
    obtain ⟨rfl, rfl⟩ : _ ∧ after = rest := by simpa using hpair
    have := ih hscan
    simp only [List.length_cons]
    omega

theorem length_scanDigits {text rest : List Char} (h : scanDigits text = some rest) :
    rest.length < text.length := by
  cases text with
  | nil => simp [scanDigits] at h
  | cons c text =>
      simp only [scanDigits] at h
      split at h
      · cases h
        have := (List.dropWhile_sublist Char.isDigit (l := text)).length_le
        simp only [List.length_cons]
        omega
      · cases h

theorem length_scanFraction {text rest : List Char} (h : scanFraction text = some rest) :
    rest.length ≤ text.length := by
  unfold scanFraction at h
  split at h
  · have := length_scanDigits h
    simp only [List.length_cons]
    omega
  · cases h
    exact Nat.le_refl _

theorem length_scanExponent {text rest : List Char} (h : scanExponent text = some rest) :
    rest.length ≤ text.length := by
  unfold scanExponent at h
  split at h
  · split at h
    · split at h <;> have := length_scanDigits h <;> simp only [List.length_cons] at * <;> omega
    · cases h
      exact Nat.le_refl _
  · cases h
    exact Nat.le_refl _

theorem length_scanWhole {text rest : List Char} (h : scanWhole text = some rest) :
    rest.length < text.length := by
  unfold scanWhole at h
  split at h
  · cases h
    simp
  · exact length_scanDigits h

theorem length_scanNumber {text rest : List Char} (h : scanNumber text = some rest) :
    rest.length < text.length := by
  have hsplit : ∀ digits, scanWhole digits >>= scanFraction >>= scanExponent = some rest →
      rest.length < digits.length := by
    intro digits hdigits
    simp only [Option.bind_eq_bind, Option.bind_eq_some_iff] at hdigits
    obtain ⟨afterFraction, ⟨afterWhole, hwhole, hfraction⟩, hexponent⟩ := hdigits
    have := length_scanWhole hwhole
    have := length_scanFraction hfraction
    have := length_scanExponent hexponent
    omega
  unfold scanNumber at h
  split at h
  · have := hsplit _ h
    simp only [List.length_cons]
    omega
  · exact hsplit _ h

/-- A token takes at least its first character. -/
theorem length_scanToken {c : Char} {text rest : List Char} {token : Token}
    (h : scanToken c text = some (token, rest)) : rest.length ≤ text.length := by
  unfold scanToken at h
  split at h
  · cases h
    exact Nat.le_refl _
  · split at h
    · obtain ⟨⟨pieces, after⟩, hscan, hpair⟩ := Option.map_eq_some_iff.mp h
      cases hpair
      exact length_scanString hscan
    · split at h
      · cases h
        simp only [List.length_drop]
        omega
      · obtain ⟨after, hscan, hpair⟩ := Option.map_eq_some_iff.mp h
        cases hpair
        have := length_scanNumber hscan
        simp only [List.length_cons] at this
        omega

/-- The tokens of a text. -/
def tokens : List Char → Option (List Token)
  | [] => some []
  | c :: text =>
    if isSpace c then tokens text
    else
      match hscan : scanToken c text with
      | none => none
      | some (token, rest) =>
        have : rest.length ≤ text.length := length_scanToken hscan
        (tokens rest).map (token :: ·)
termination_by text => text.length

end FormalLanguages.Json
