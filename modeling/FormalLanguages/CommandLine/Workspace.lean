import FormalLanguages.CommandLine.Command

/-!
A working directory as a value, holding plain files by name, and whole command lines that are run
in it.
-/

namespace FormalLanguages.CommandLine

/-- The files of a directory without subdirectories, each with its bytes. -/
structure Workspace where
  files : List (String × ByteArray) := []

namespace Workspace

def file? (workspace : Workspace) (name : String) : Option ByteArray :=
  workspace.files.lookup name

/-- The name of the file that a relative path leads to, whether or not it exists. -/
def resolve (workspace : Workspace) (path : String) : Except FileProblem String :=
  let parts := Text.fields (· == '/') path.toList
  let steps := parts.filter fun step => !step.isEmpty && step ≠ ['.']
  let endsInDirectory := parts.getLast?.any fun step => step.isEmpty || step = ['.']
  if path.isEmpty || parts.head?.any List.isEmpty then .error .notFound
  else
    match steps with
    | [] => .error .isDirectory
    | [step] =>
      let name := String.ofList step
      if step = ['.', '.'] then .error .isDirectory
      else if !endsInDirectory then .ok name
      else .error (if (workspace.file? name).isSome then .notDirectory else .notFound)
    | step :: _ =>
      .error (if (workspace.file? (String.ofList step)).isSome then .notDirectory else .notFound)

def read (workspace : Workspace) (path : String) : FileContent := do
  let name ← workspace.resolve path
  match workspace.file? name with
  | some bytes => return bytes
  | none => throw .notFound

def write (workspace : Workspace) (path text : String) : Except FileProblem Workspace := do
  let name ← workspace.resolve path
  return { files := (name, text.toUTF8) :: workspace.files.filter (·.1 ≠ name) }

/-- Runs a command and writes what it saves. -/
def runCommand (workspace : Workspace) (command : Command) : Report × Workspace :=
  let report := command.report (workspace.read command.file)
  match report.saved with
  | none => (report, workspace)
  | some (path, text) =>
    match workspace.write path text with
    | .ok workspace => (report, workspace)
    | .error problem => (report.unsaved path problem, workspace)

/-- What running a command line leaves behind. -/
structure Outcome where
  exitCode : UInt32
  lines : List String := []
  problem : Option String := none
  workspace : Workspace

def run (workspace : Workspace) (args : List String) : Outcome :=
  match Command.ofArgs args with
  | .ok command =>
    let (report, workspace) := workspace.runCommand command
    { exitCode := report.exitCode
      lines := report.lines
      problem := report.problem
      workspace }
  | .error .version => { exitCode := 0, lines := [versionLine], workspace }
  | .error .help => { exitCode := 0, lines := helpLines, workspace }
  | .error .misuse => { exitCode := misuseCode, workspace }

end Workspace

end FormalLanguages.CommandLine
