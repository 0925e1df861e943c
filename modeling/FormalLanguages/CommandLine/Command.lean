import FormalLanguages.Automaton.Document
import FormalLanguages.CommandLine.Arguments
import FormalLanguages.Generation.Generator
import FormalLanguages.Grammar.Canonical
import FormalLanguages.Grammar.Chomsky
import FormalLanguages.Grammar.Document

/-!
Commands on the file of a grammar or an automaton: which arguments state them, and what they print
and save, given the content of their file.
-/

namespace FormalLanguages.CommandLine

structure GenerateOptions where
  min : Nat
  max : Nat
  order : Generation.Order
  canonical : Bool
  chomsky : Bool
  /-- The time allowed for the search, in seconds. -/
  timeout : Nat

/-- What to do with a file. -/
inductive Task where
  /-- Prints every stage of the canonical form and saves it. -/
  | canonical (output : Option String)
  | chomsky (output : Option String)
  | generate (options : GenerateOptions)
  | finite (input : String)
  | pushdown (input : String)

structure Command where
  file : String
  task : Task

/-- An unsigned number of 64 bits in decimal digits, perhaps after a plus sign. -/
def number? (text : String) : Option Nat :=
  let digits :=
    match text.toList with
    | '+' :: digits => digits
    | digits => digits
  let value := digits.foldl (fun n c => n * 10 + (c.toNat - '0'.toNat)) 0
  if !digits.isEmpty && digits.all Char.isDigit && value < UInt64.size then some value else none

def order? : String → Option Generation.Order
  | "left" => some .leftmost
  | "right" => some .rightmost
  | _ => none

def isPath (text : String) : Bool :=
  !text.isEmpty

def formShape : Shape where
  options := [{ long := "output", short := some 'o', accepts := some isPath }]
  positionals := [isPath]
  required := 1

def generateShape : Shape where
  options := [
    { long := "min", accepts := some fun text => (number? text).isSome },
    { long := "max", accepts := some fun text => (number? text).isSome },
    { long := "order", accepts := some fun text => (order? text).isSome },
    { long := "canonical" },
    { long := "chomsky" },
    { long := "timeout", accepts := some fun text => (number? text).isSome }]
  positionals := [isPath]
  required := 1

def recognizeShape : Shape where
  options := []
  positionals := [isPath, fun _ => true]
  required := 1

def Given.file (given : Given) : String :=
  given.positionals.headD ""

/-- The options of a search, with their defaults. -/
def Given.generateOptions (given : Given) : GenerateOptions where
  min := ((given.value? "min").bind number?).getD 0
  max := ((given.value? "max").bind number?).getD 5
  order := ((given.value? "order").bind order?).getD .leftmost
  canonical := (given.value? "canonical").isSome
  chomsky := (given.value? "chomsky").isSome
  timeout := ((given.value? "timeout").bind number?).getD 60

/-- The command of a subcommand and its arguments. -/
def Command.ofSubcommand (name : String) (args : List String) : Except Notice Command :=
  match name with
  | "canonical" => do
    let given ← formShape.read args
    return { file := given.file, task := .canonical (given.value? "output") }
  | "chomsky" => do
    let given ← formShape.read args
    return { file := given.file, task := .chomsky (given.value? "output") }
  | "generate" => do
    let given ← generateShape.read args
    return { file := given.file, task := .generate given.generateOptions }
  | "dfa" => do
    let given ← recognizeShape.read args
    return { file := given.file, task := .finite (given.positionals.getD 1 "") }
  | "dpda" => do
    let given ← recognizeShape.read args
    return { file := given.file, task := .pushdown (given.positionals.getD 1 "") }
  | _ => .error .misuse

def subcommands : List String :=
  ["canonical", "chomsky", "generate", "dfa", "dpda", "help"]

/-- The notice that letters before the subcommand call for. -/
def leadingNotice? : List Char → Option Notice
  | [] => none
  | 'v' :: letters => leadingNotice? letters
  | 'h' :: _ => some .help
  | 'V' :: _ => some .version
  | _ => some .misuse

/-- The command that a whole command line states. -/
def Command.ofArgs : List String → Except Notice Command
  | [] => .error .misuse
  | text :: rest =>
    match Word.of text with
    | .terminator => .error .misuse
    | .long "verbose" none => Command.ofArgs rest
    | .long "version" none => .error .version
    | .long "help" none => .error .help
    | .long _ _ => .error .misuse
    | .short letters =>
      match leadingNotice? letters with
      | none => Command.ofArgs rest
      | some notice => .error notice
    | .plain "help" => .error (if rest.all (· ∈ subcommands) then .help else .misuse)
    | .plain name => Command.ofSubcommand name rest

/-- What a command does: the lines that it prints, what went wrong, and the text that it saves to
a path. -/
structure Report where
  lines : List String := []
  problem : Option String := none
  saved : Option (String × String) := none

/-- The number of bodies that a search tries in a second of the time allowed for it. Time is counted
in this measure, so that what a command does depends on its arguments only. -/
def bodiesPerSecond : Nat := 5000000

/-- A chain as it is listed; the empty one is `λ`. -/
def chainLine (chain : String) : String :=
  if chain.isEmpty then String.singleton lambda else chain

def problems (errors : List (Located Grammar.Document.Problem)) : String :=
  "\n".intercalate (errors.map (Located.display Grammar.Document.Problem.message))

/-- The steps that are common to the commands on grammars: the problem of a step ends the report. -/
def loadGrammar (file : String) (content : FileContent) : Except String Grammar :=
  (Grammar.Document.load file content).mapError problems

/-- What is saved of a grammar when an output is named. -/
def savedText (g : Grammar) (output : Option String) : Option (String × String) :=
  output.map fun path => (path, (Grammar.Document.ofGrammar g).text)

def canonicalReport (file : String) (content : FileContent) (output : Option String) :
    Except String Report := do
  let g ← loadGrammar file content
  let (answer, sheet) := Grammar.canonizeInPlace.on { grammar := g }
  answer.mapError Grammar.Error.message
  return {
    lines := sheet.published ++ [sheet.grammar.text]
    saved := savedText sheet.grammar output }

def chomskyReport (file : String) (content : FileContent) (output : Option String) :
    Except String Report := do
  let g ← loadGrammar file content
  let g ← g.toCanonical.mapError Grammar.Error.message
  return { lines := [g.toChomsky.text], saved := savedText g.toChomsky output }

/-- The grammar in the form that the options of a search ask for. -/
def GenerateOptions.form (options : GenerateOptions) (g : Grammar) :
    Except Grammar.Error Grammar := do
  let g ← if options.canonical || options.chomsky then g.toCanonical else .ok g
  return if options.chomsky then g.toChomsky else g

def generateReport (file : String) (content : FileContent) (options : GenerateOptions) :
    Except String Report := do
  let settings ← (Generation.Settings.of options.min options.max options.order).mapError
    Generation.Error.message
  let g ← loadGrammar file content
  let g ← (options.form g).mapError Grammar.Error.message
  let generator ← (Generation.Generator.ofGrammar g settings).mapError Generation.Error.message
  match (generator.run (some (options.timeout * bodiesPerSecond))).progress with
  | .completed chains =>
    return { lines := chains.map chainLine ++ ["Chains: " ++ toString chains.length] }
  | _ =>
    throw ("Generation was canceled after " ++ toString options.timeout ++
      "s, try a smaller --max")

/-- The report on a run: its lines, then the verdict. -/
def runReport {Configuration : Type} (fields : Configuration → List String)
    (run : Automaton.Run Configuration) : Report :=
  match run.verdict with
  | .ok () => { lines := run.lines fields ++ ["Accepted"] }
  | .error rejection => { lines := run.lines fields, problem := some rejection.message }

def finiteReport (file : String) (content : FileContent) (input : String) :
    Except String Report := do
  let m ← (Automaton.Finite.load file content).mapError
    (Located.display Automaton.Problem.message)
  return runReport Automaton.Finite.Configuration.fields (m.recognize input)

def pushdownReport (file : String) (content : FileContent) (input : String) :
    Except String Report := do
  let m ← (Automaton.Pushdown.load file content).mapError
    (Located.display Automaton.Problem.message)
  return runReport Automaton.Pushdown.Configuration.fields (m.recognize input)

/-- The report of a command whose file has the given content. -/
def Command.report (command : Command) (content : FileContent) : Report :=
  let report : Except String Report :=
    match command.task with
    | .canonical output => canonicalReport command.file content output
    | .chomsky output => chomskyReport command.file content output
    | .generate options => generateReport command.file content options
    | .finite input => finiteReport command.file content input
    | .pushdown input => pushdownReport command.file content input
  match report with
  | .ok report => report
  | .error problem => { problem := some problem }

/-- The report once the text to save could not be written. -/
def Report.unsaved (report : Report) (path : String) (problem : FileProblem) : Report :=
  { report with
    problem := some (problems [{ file := path, error := .file problem }])
    saved := none }

def Report.exitCode (report : Report) : UInt32 :=
  if report.problem.isSome then 1 else 0

/-- What `--version` prints. -/
def versionLine : String := "formlang 0.1.0"

/-- What `--help` prints. -/
def helpLines : List String := [
  "Usage: formlang [-v] <COMMAND>",
  "",
  "  canonical <FILE> [-o <FILE>]   Bring a grammar to canonical form, printing every step",
  "  chomsky <FILE> [-o <FILE>]     Bring a grammar to Chomsky normal form",
  "  generate <FILE> [--min <LENGTH>] [--max <LENGTH>] [--order left|right]",
  "           [--canonical] [--chomsky] [--timeout <SECONDS>]",
  "                                 List the chains of a grammar within a length window",
  "  dfa <AUTOMATON> [INPUT]        Run a deterministic finite automaton over a chain",
  "  dpda <AUTOMATON> [INPUT]       Run a deterministic pushdown automaton over a chain"]

/-- The exit code of arguments that were misused. -/
def misuseCode : UInt32 := 2

end FormalLanguages.CommandLine
