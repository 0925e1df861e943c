/-!
Files as the outside world answers for them, and errors with the place in a file that they blame.
-/

namespace FormalLanguages

/-- Why a file could not be read or written. -/
inductive FileProblem where
  | notFound
  /-- The bytes are no UTF-8 text. -/
  | invalidData
  | isDirectory
  | notDirectory
  | permissionDenied
  | other
  deriving DecidableEq, Repr

def FileProblem.message : FileProblem → String
  | .notFound => "no such file or directory"
  | .invalidData => "the text is not valid UTF-8"
  | .isDirectory => "is a directory"
  | .notDirectory => "not a directory"
  | .permissionDenied => "permission denied"
  | .other => "the file is not accessible"

/-- What reading a file gives. -/
abbrev FileContent := Except FileProblem ByteArray

/-- The text of a file. -/
def FileContent.text (content : FileContent) : Except FileProblem String := do
  match String.fromUTF8? (← content) with
  | some text => .ok text
  | none => .error .invalidData

/-- An error in a file. It blames one of the entries, which count from 1, or with entry 0 the file
as a whole. -/
structure Located (ε : Type) where
  file : String
  entry : Nat := 0
  error : ε
  deriving DecidableEq, Repr

namespace Located

def location {ε : Type} (located : Located ε) : String :=
  if located.entry = 0 then located.file
  else located.file ++ " rule #" ++ toString located.entry

/-- The location in bold red and brackets, then the message. -/
def display {ε : Type} (message : ε → String) (located : Located ε) : String :=
  "\x1b[31;49;1m[" ++ located.location ++ "]\x1b[39;49;1m  " ++ message located.error ++ "\x1b[0m"

end Located

end FormalLanguages
