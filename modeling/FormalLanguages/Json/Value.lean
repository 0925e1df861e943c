import FormalLanguages.Json.Token

/-!
JSON values and how a text is read into one. What a reader asks for is strict, what it does not ask
for need only be well-formed: a string whose escapes name half a character is a value, but not a
text.
-/

namespace FormalLanguages

/-- The text of some pieces. The halves of a character must stand side by side, high half first. -/
def Json.textOfPieces : List Json.Piece → Option (List Char)
  | [] => some []
  | .char c :: pieces => (Json.textOfPieces pieces).map (c :: ·)
  | .unit high :: .unit low :: pieces =>
    if 0xD800 ≤ high ∧ high < 0xDC00 then
      if 0xDC00 ≤ low ∧ low < 0xE000 then
        (Json.textOfPieces pieces).map
          (Char.ofNat (0x10000 + (high - 0xD800) * 0x400 + (low - 0xDC00)) :: ·)
      else none
    else if 0xDC00 ≤ high ∧ high < 0xE000 then none
    else (Json.textOfPieces (.unit low :: pieces)).map (Char.ofNat high :: ·)
  | .unit n :: pieces =>
    if 0xD800 ≤ n ∧ n < 0xE000 then none
    else (Json.textOfPieces pieces).map (Char.ofNat n :: ·)

inductive Json where
  | null
  | bool (value : Bool)
  | number
  /-- A string; nothing when it is no text. -/
  | string (text : Option String)
  | array (items : List Json)
  | object (members : List (Option String × Json))

namespace Json

def stringOfPieces (pieces : List Piece) : Option String :=
  (textOfPieces pieces).map String.ofList

/-- What is left of some tokens once one or more of them are read. -/
abbrev Rest (tokens : List Token) := { rest : List Token // rest.length < tokens.length }

mutual

/-- The value at the front of some tokens, and the tokens after it. -/
def parseValue (tokens : List Token) : Option (Json × Rest tokens) :=
  match tokens with
  | [] => none
  | .null :: rest => some (.null, ⟨rest, Nat.lt_succ_self _⟩)
  | .bool value :: rest => some (.bool value, ⟨rest, Nat.lt_succ_self _⟩)
  | .number :: rest => some (.number, ⟨rest, Nat.lt_succ_self _⟩)
  | .string pieces :: rest => some (.string (stringOfPieces pieces), ⟨rest, Nat.lt_succ_self _⟩)
  | .openArray :: .closeArray :: rest =>
    some (.array [], ⟨rest, by simp only [List.length_cons]; omega⟩)
  | .openArray :: rest =>
    match parseItems rest with
    | none => none
    | some (items, ⟨rest, h⟩) =>
      some (.array items, ⟨rest, by simp only [List.length_cons]; omega⟩)
  | .openObject :: .closeObject :: rest =>
    some (.object [], ⟨rest, by simp only [List.length_cons]; omega⟩)
  | .openObject :: rest =>
    match parseMembers rest with
    | none => none
    | some (members, ⟨rest, h⟩) =>
      some (.object members, ⟨rest, by simp only [List.length_cons]; omega⟩)
  | _ => none
termination_by 2 * tokens.length
decreasing_by all_goals simp only [List.length_cons]; omega

/-- The items of an array up to its end; there is at least one. -/
def parseItems (tokens : List Token) : Option (List Json × Rest tokens) :=
  match parseValue tokens with
  | none => none
  | some (item, ⟨rest, h⟩) =>
    match rest, h with
    | .closeArray :: rest, h => some ([item], ⟨rest, by simp only [List.length_cons] at h; omega⟩)
    | .comma :: rest, h =>
      have : rest.length < tokens.length := by simp only [List.length_cons] at h; omega
      match parseItems rest with
      | none => none
      | some (items, ⟨rest, h'⟩) => some (item :: items, ⟨rest, by omega⟩)
    | _, _ => none
termination_by 2 * tokens.length + 1
decreasing_by all_goals omega

/-- The members of an object up to its end; there is at least one. -/
def parseMembers (tokens : List Token) : Option (List (Option String × Json) × Rest tokens) :=
  match tokens with
  | .string key :: .colon :: tokens =>
    match parseValue tokens with
    | none => none
    | some (value, ⟨rest, h⟩) =>
      match rest, h with
      | .closeObject :: rest, h =>
        some ([(stringOfPieces key, value)], ⟨rest, by simp only [List.length_cons] at h ⊢; omega⟩)
      | .comma :: rest, h =>
        have : rest.length < tokens.length + 2 := by simp only [List.length_cons] at h; omega
        match parseMembers rest with
        | none => none
        | some (members, ⟨rest, h'⟩) =>
          some ((stringOfPieces key, value) :: members,
            ⟨rest, by simp only [List.length_cons]; omega⟩)
      | _, _ => none
  | _ => none
termination_by 2 * tokens.length
decreasing_by all_goals simp only [List.length_cons]; omega

end

/-- The value that a text holds; nothing but white space may follow it. -/
def parse (text : String) : Option Json := do
  let tokens ← tokens text.toList
  let (value, rest) ← parseValue tokens
  if rest.val.isEmpty then some value else none

/-- The text of a string. -/
def text? : Json → Option String
  | .string text => text
  | _ => none

/-- The character of a string that holds one. -/
def char? (value : Json) : Option Char :=
  match value.text?.map String.toList with
  | some [c] => some c
  | _ => none

/-- The items of an array, each read alike. -/
def list? {α : Type} (read : Json → Option α) : Json → Option (List α)
  | .array items => items.mapM read
  | _ => none

/-- The members of an object, in order, the keys and the values each read alike. -/
def members? {κ α : Type} (readKey : String → Option κ) (read : Json → Option α) :
    Json → Option (List (κ × α))
  | .object members =>
    members.mapM fun (key, value) => do return (← key >>= readKey, ← read value)
  | _ => none

/-- The values of named fields. They are given by an object, where a field may be absent but not
repeated and other members are ignored, or by an array of the values of the first fields. -/
def record? (fields : List String) : Json → Option (List (Option Json))
  | .object members => do
    let members ← members.mapM fun (key, value) => key.map (·, value)
    fields.mapM fun field =>
      match members.filter (·.1 = field) with
      | [] => some none
      | [(_, value)] => some (some value)
      | _ => none
  | .array items =>
    if items.length ≤ fields.length then
      some ((items.map some) ++ List.replicate (fields.length - items.length) none)
    else none
  | _ => none

/-- A field that may be absent. -/
def optional {α : Type} (fallback : α) (read : Json → Option α) : Option Json → Option α
  | none => some fallback
  | some value => read value

/-- A value that may be null. -/
def nullable {α : Type} (read : Json → Option α) : Json → Option (Option α)
  | .null => some none
  | value => (read value).map some

/-- The text between quotes, with the escapes that JSON demands and no others. -/
def quote (text : String) : String :=
  let hex (n : Nat) : Char := (Nat.toDigits 16 n).getD 0 '0'
  let escape (c : Char) : List Char :=
    if c = '"' then ['\\', '"']
    else if c = '\\' then ['\\', '\\']
    else if c = '\x08' then ['\\', 'b']
    else if c = '\x0c' then ['\\', 'f']
    else if c = '\n' then ['\\', 'n']
    else if c = '\r' then ['\\', 'r']
    else if c = '\t' then ['\\', 't']
    else if c.toNat < 0x20 then ['\\', 'u', '0', '0', hex (c.toNat / 16), hex (c.toNat % 16)]
    else [c]
  String.ofList ('"' :: text.toList.flatMap escape ++ ['"'])

end Json

end FormalLanguages
