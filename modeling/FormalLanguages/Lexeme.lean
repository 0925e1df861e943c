import FormalLanguages.Text.Blank
import Std.Data.ExtTreeSet

/-!
Lexemes of rule bodies: bare characters and wrapped names `<name>`. `tokenize` reads a body into
lexemes and blames the first offence from the left, `untokenize` writes them back.
-/

namespace FormalLanguages

/-- The sign between the head and the body of a rule. -/
def arrow : Char := '→'

/-- The arrow as typed on a plain keyboard. -/
def asciiArrow : List Char := ['-', '>']

/-- The sign for the empty chain. -/
def lambda : Char := 'λ'

/-- The sign between alternatives of one head. -/
def alternativeBar : Char := '|'

/-- Characters that can never be part of a symbol: the signs of rule texts and the blanks. -/
def isReserved (c : Char) : Bool :=
  c == '<' || c == '>' || c == lambda || c == alternativeBar || c == arrow || Text.isBlank c

/-- The signs between names in a list of non-terminals. -/
def isNameSeparator (c : Char) : Bool :=
  c == ';' || c == ','

inductive Lexeme where
  /-- A terminal, a non-terminal of one character or `λ`. -/
  | bare (c : Char)
  /-- A name, held without its wrapper. -/
  | wrapped (name : String)
  deriving DecidableEq, Repr

namespace Lexeme

/-- What is wrong with a text that is no sequence of lexemes. -/
inductive Fault where
  /-- A `>` outside a wrapper. -/
  | unexpectedClose
  /-- A `<` inside a wrapper. -/
  | nestedOpen
  /-- The end of the text inside a wrapper. -/
  | unterminated
  /-- A wrapper around nothing. -/
  | emptyName
  deriving DecidableEq, Repr

def Fault.message : Fault → String
  | .unexpectedClose => "Unexpected `>` symbol"
  | .nestedOpen => "Unexpected `<` symbol"
  | .unterminated => "Unexpected end of lexeme"
  | .emptyName => "Empty lexeme `<>`"

def isLambda : Lexeme → Bool
  | .bare c => c == lambda
  | .wrapped _ => false

/-- The characters that the lexeme refers by, without a wrapper. -/
def name : Lexeme → String
  | .bare c => String.singleton c
  | .wrapped name => name

/-- The characters that the lexeme is written with. -/
def spelling : Lexeme → List Char
  | .bare c => [c]
  | .wrapped name => '<' :: name.toList ++ ['>']

/-- Reads lexemes. Inside a wrapper the first argument holds the letters of its name so far,
last one first. -/
def scan : Option (List Char) → List Char → Except Fault (List Lexeme)
  | none, [] => .ok []
  | some _, [] => .error .unterminated
  | none, c :: text =>
    if c = '<' then scan (some []) text
    else if c = '>' then .error .unexpectedClose
    else (scan none text).map (.bare c :: ·)
  | some letters, c :: text =>
    if c = '<' then .error .nestedOpen
    else if c ≠ '>' then scan (some (c :: letters)) text
    else if letters.isEmpty then .error .emptyName
    else (scan none text).map (.wrapped (String.ofList letters.reverse) :: ·)

def tokenize (text : String) : Except Fault (List Lexeme) :=
  scan none text.toList

def untokenize (lexemes : List Lexeme) : String :=
  String.ofList (lexemes.flatMap spelling)

end Lexeme

def wrap (name : String) : String :=
  String.ofList (Lexeme.wrapped name).spelling

/-- The name inside a wrapper; a text without both wrappers is its own name. -/
def unwrap (text : String) : String :=
  match text.toList with
  | '<' :: inner => if inner.getLast? = some '>' then String.ofList inner.dropLast else text
  | _ => text

/-- Whether a text is one of some names, as it stands or with its wrapper stripped. -/
def isListed (names : Std.ExtTreeSet String) (text : String) (stripped : Bool) : Bool :=
  (if stripped then unwrap text else text) ∈ names

/-- How a rule body refers to a name: bare when it is one character, wrapped otherwise. -/
def reference (name : String) : String :=
  if name.length = 1 then name else wrap name

end FormalLanguages
