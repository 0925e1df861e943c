import FormalLanguages.Text.Split

/-!
Arguments of a subcommand. Options and positional arguments may be mixed, an option is given at
most once, its value is attached to it or is the next argument, and after `--` every argument is
positional. The switches for help and for verbosity are known everywhere.
-/

namespace FormalLanguages.CommandLine

/-- Why arguments lead to no command. -/
inductive Notice where
  | help
  | version
  | misuse
  deriving DecidableEq, Repr

structure OptionForm where
  long : String
  short : Option Char := none
  /-- Which values are accepted; an option without such a test takes no value. -/
  accepts : Option (String → Bool) := none

/-- The arguments that a subcommand takes. -/
structure Shape where
  options : List OptionForm
  /-- Which texts are accepted for each positional argument. -/
  positionals : List (String → Bool)
  /-- How many of the positional arguments have to be given. -/
  required : Nat

/-- The arguments that were given. -/
structure Given where
  positionals : List String := []
  options : List (String × String) := []

/-- An argument by its form. -/
inductive Word where
  | terminator
  | long (name : String) (value : Option String)
  | short (letters : List Char)
  | plain (text : String)

def Word.of (text : String) : Word :=
  match text.toList with
  | ['-', '-'] => .terminator
  | '-' :: '-' :: letters =>
    match Text.cut? ['='] letters with
    | some (name, value) => .long (String.ofList name) (some (String.ofList value))
    | none => .long (String.ofList letters) none
  | '-' :: c :: letters => .short (c :: letters)
  | _ => .plain text

/-- The value of an option: what is attached to it, or the next argument unless it is an option. -/
def valueAndRest (attached : Option String) (rest : List String) :
    Except Notice (String × List String) :=
  match attached, rest with
  | some value, rest => .ok (value, rest)
  | none, next :: rest =>
    match Word.of next with
    | .plain value => .ok (value, rest)
    | _ => .error .misuse
  | none, [] => .error .misuse

theorem length_valueAndRest {attached : Option String} {rest left : List String} {value : String}
    (h : valueAndRest attached rest = .ok (value, left)) : left.length ≤ rest.length := by
  unfold valueAndRest at h
  split at h
  · cases h
    exact Nat.le_refl _
  · split at h
    · cases h
      simp
    · cases h
  · cases h

namespace Given

def value? (given : Given) (name : String) : Option String :=
  given.options.lookup name

/-- Notes an option, once. -/
def addOption (form : OptionForm) (value : String) (given : Given) : Except Notice Given :=
  if (given.value? form.long).isSome then .error .misuse
  else if (form.accepts.getD fun _ => true) value then
    .ok { given with options := (form.long, value) :: given.options }
  else .error .misuse

/-- Notes a positional argument, if the shape has a place for it. -/
def addPositional (shape : Shape) (text : String) (given : Given) : Except Notice Given :=
  match shape.positionals[given.positionals.length]? with
  | some accepts =>
    if accepts text then .ok { given with positionals := given.positionals ++ [text] }
    else .error .misuse
  | none => .error .misuse

end Given

/-- What a group of letters after one dash asks for. -/
inductive Letters where
  | nothing
  | help
  | option (form : OptionForm) (attached : Option String)
  | unknown

/-- Reads letters from the left; the first one that takes a value has the others for it. -/
def Letters.of (shape : Shape) : List Char → Letters
  | [] => .nothing
  | 'v' :: letters => Letters.of shape letters
  | 'h' :: _ => .help
  | c :: letters =>
    match shape.options.find? (·.short = some c) with
    | none => .unknown
    | some form =>
      match letters with
      | [] => .option form none
      | '=' :: value => .option form (some (String.ofList value))
      | value => .option form (some (String.ofList value))

/-- Reads arguments into those given so far. -/
def Shape.scan (shape : Shape) (args : List String) (given : Given) : Except Notice Given :=
  match args with
  | [] => .ok given
  | text :: rest =>
    let withValue (form : OptionForm) (attached : Option String) : Except Notice Given :=
      match hvalue : valueAndRest attached rest with
      | .error notice => .error notice
      | .ok (value, left) =>
        have : left.length ≤ rest.length := length_valueAndRest hvalue
        given.addOption form value >>= shape.scan left
    match Word.of text with
    | .terminator => rest.foldlM (fun given text => given.addPositional shape text) given
    | .plain text => given.addPositional shape text >>= shape.scan rest
    | .short letters =>
      match Letters.of shape letters with
      | .nothing => shape.scan rest given
      | .help => .error .help
      | .option form attached => withValue form attached
      | .unknown => .error .misuse
    | .long "verbose" none => shape.scan rest given
    | .long "help" none => .error .help
    | .long name attached =>
      match shape.options.find? (·.long = name), attached with
      | none, _ => .error .misuse
      | some form, attached =>
        if form.accepts.isSome then withValue form attached
        else if attached.isSome then .error .misuse
        else given.addOption form "" >>= shape.scan rest
termination_by args.length

/-- The arguments given to a subcommand of some shape. -/
def Shape.read (shape : Shape) (args : List String) : Except Notice Given := do
  let given ← shape.scan args {}
  if given.positionals.length < shape.required then .error .misuse else .ok given

end FormalLanguages.CommandLine
