import FormalLanguages.CommandLine.Command

/-!
The program: it reads the file that the command line names, prints the report of the command and
writes what the command saves.
-/

namespace FormalLanguages.CommandLine

/-- The problem behind a failed access to a file. -/
def fileProblem : IO.Error → FileProblem
  | .noFileOrDirectory .. => .notFound
  | .permissionDenied .. => .permissionDenied
  | .inappropriateType .. => .isDirectory
  | .noSuchThing .. => .notFound
  | _ => .other

/-- The content of a file, or why there is none. -/
def readContent (path : String) : IO FileContent := do
  try
    return .ok (← IO.FS.readBinFile path)
  catch error => return .error (fileProblem error)

/-- Writes what a report saves and amends the report when this fails. -/
def save (report : Report) : IO Report := do
  match report.saved with
  | none => return report
  | some (path, text) =>
    try
      IO.FS.writeFile path text
      return report
    catch error => return report.unsaved path (fileProblem error)

end FormalLanguages.CommandLine

open FormalLanguages.CommandLine

def main (args : List String) : IO UInt32 := do
  match Command.ofArgs args with
  | .error .version =>
    IO.println versionLine
    return 0
  | .error .help =>
    helpLines.forM fun line => IO.println line
    return 0
  | .error .misuse =>
    helpLines.forM fun line => IO.eprintln line
    return misuseCode
  | .ok command =>
    let report := command.report (← readContent command.file)
    report.lines.forM fun line => IO.println line
    let report ← save report
    report.problem.forM fun problem => IO.eprintln problem
    return report.exitCode
