import Haml.Text.Basic

/-!
# Arguments of the command line

The program has one subcommand, `convert`, which takes a path and flags. Arguments are read from
left to right, and the first fault found on the way is the one that is told. What can only be seen
at the end, such as a missing path, is told after that.

Two things are looser than the rest: an argument after `--` is never a flag, and an empty path is
told only when the next known flag is reached, or at the end.
-/

namespace Haml.Command

/-- What the arguments ask for. -/
structure Options where
  /-- The template or directory to convert. -/
  path : Option Text
  stdin : Bool
  json : Bool
  dryRun : Bool
  deleteSource : Bool
  verbose : Bool
  deriving DecidableEq, Repr

def Options.empty : Options := ⟨none, false, false, false, false, false⟩

/-- Why arguments are not taken as they are. -/
inductive Refusal where
  | help
  | nothing
  | missingSubcommand
  | invalidSubcommand
  /-- A flag is not known, or an argument is one too many. -/
  | unknownArgument
  /-- A flag has a value. -/
  | tooManyValues
  /-- A flag is given twice, or two flags exclude each other. -/
  | argumentConflict
  | invalidValue
  /-- There is neither a path nor the flag that does without one. -/
  | missingArgument
  deriving DecidableEq, Repr

/-- The exit code after a refusal: asking for help is no fault. -/
def Refusal.exitCode : Refusal → Nat
  | .help => 0
  | _ => 2

def usage : Text :=
  "usage: convert [-v] [--stdin] [--json] [--dry-run | --delete-source] [PATH]".toList

def Refusal.message : Refusal → Text
  | .help => usage
  | .nothing => usage
  | .missingSubcommand => "error: a subcommand is required".toList
  | .invalidSubcommand => "error: unknown subcommand".toList
  | .unknownArgument => "error: unexpected argument".toList
  | .tooManyValues => "error: unexpected value for a flag".toList
  | .argumentConflict => "error: a flag is repeated or excludes another".toList
  | .invalidValue => "error: a path is empty".toList
  | .missingArgument => "error: a path is required".toList

/-! ## Words -/

inductive Flag where
  | help
  | verbose
  | stdin
  | json
  | dryRun
  | deleteSource
  deriving DecidableEq, Repr

def Flag.ofName? (name : Text) : Option Flag :=
  if name = "help".toList then some .help
  else if name = "verbose".toList then some .verbose
  else if name = "stdin".toList then some .stdin
  else if name = "json".toList then some .json
  else if name = "dry-run".toList then some .dryRun
  else if name = "delete-source".toList then some .deleteSource
  else none

def Flag.ofLetter? (letter : Char) : Option Flag :=
  if letter = 'h' then some .help else if letter = 'v' then some .verbose else none

/-- Whether a flag may stand before the subcommand. -/
def Flag.isGlobal : Flag → Bool
  | .help => true
  | .verbose => true
  | _ => false

/-- An argument by its form. -/
inductive Word where
  /-- The mark `--`, after which nothing is a flag. -/
  | terminator
  /-- A long name, `--name`, with a value after an equals sign or not. -/
  | long (name : Text) (hasValue : Bool)
  /-- A dash and letters, each a flag. -/
  | letters (letters : Text)
  /-- Anything else; a lone dash is among it. -/
  | plain (text : Text)
  deriving DecidableEq, Repr

def Word.of : Text → Word
  | ['-', '-'] => .terminator
  | '-' :: '-' :: name => .long (name.takeWhile (· ≠ '=')) (name.contains '=')
  | '-' :: c :: more => .letters (c :: more)
  | argument => .plain argument

/-! ## Flags -/

/-- The options with a flag set; a flag that is set already is a conflict. -/
def Options.set (options : Options) : Flag → Except Refusal Options
  | .help => .error .help
  | .verbose =>
    if options.verbose then .error .argumentConflict else .ok { options with verbose := true }
  | .stdin => if options.stdin then .error .argumentConflict else .ok { options with stdin := true }
  | .json => if options.json then .error .argumentConflict else .ok { options with json := true }
  | .dryRun =>
    if options.dryRun then .error .argumentConflict else .ok { options with dryRun := true }
  | .deleteSource =>
    if options.deleteSource then .error .argumentConflict
    else .ok { options with deleteSource := true }

/-- The options with a known flag set. An empty path that came before it is told first. -/
def Options.react (options : Options) (flag : Flag) : Except Refusal Options :=
  if options.path = some [] then .error .invalidValue else options.set flag

def Options.setLong (options : Options) (allowed : Flag → Bool) (name : Text) (hasValue : Bool) :
    Except Refusal Options :=
  match (Flag.ofName? name).filter allowed with
  | none => .error .unknownArgument
  | some flag => if hasValue then .error .tooManyValues else options.react flag

/-- The options with the flags of all letters set, from left to right. -/
def Options.setLetters (options : Options) : Text → Except Refusal Options
  | [] => .ok options
  | letter :: letters =>
    match Flag.ofLetter? letter with
    | none => .error .unknownArgument
    | some flag => (options.react flag).bind fun options => options.setLetters letters

/-- The options with a path; a second one is too many. -/
def Options.setPath (options : Options) (path : Text) : Except Refusal Options :=
  match options.path with
  | none => .ok { options with path := some path }
  | some _ => .error .unknownArgument

/-! ## Arguments -/

def Options.setPaths (options : Options) : List Text → Except Refusal Options
  | [] => .ok options
  | path :: paths => (options.setPath path).bind fun options => options.setPaths paths

def Options.setAll (options : Options) : List Text → Except Refusal Options
  | [] => .ok options
  | argument :: arguments =>
    match Word.of argument with
    | .terminator => options.setPaths arguments
    | .long name hasValue =>
      (options.setLong (fun _ => true) name hasValue).bind fun options => options.setAll arguments
    | .letters letters =>
      (options.setLetters letters).bind fun options => options.setAll arguments
    | .plain text => (options.setPath text).bind fun options => options.setAll arguments

/-- What can only be told once all arguments are read. -/
def Options.check (options : Options) : Except Refusal Options :=
  if options.path = some [] then .error .invalidValue
  else if options.dryRun && options.deleteSource then .error .argumentConflict
  else if options.path.isNone && !options.stdin then .error .missingArgument
  else .ok options

/-- The options of the subcommand; `verbose` says whether that flag stood before it. -/
def Options.ofConvert (verbose : Bool) (arguments : List Text) : Except Refusal Options :=
  (Options.empty.setAll arguments).bind fun options =>
    options.check.map fun options => { options with verbose := verbose || options.verbose }

def convertName : Text := "convert".toList

/-- The name of the subcommand that explains the others. -/
def helpName : Text := "help".toList

def helpOn : List Text → Refusal
  | [] => .help
  | [name] => if name = convertName || name = helpName then .help else .invalidSubcommand
  | _ => .invalidSubcommand

/-- The refusal where arguments end before a subcommand. -/
def Options.refuseEnd (options : Options) : Refusal :=
  if options.verbose then .missingSubcommand else .nothing

/-- The refusal of what follows `--` in the place of a subcommand. -/
def Options.refuseTerminated (options : Options) : List Text → Refusal
  | [] => options.refuseEnd
  | name :: _ =>
    if name = convertName || name = helpName then .unknownArgument else .invalidSubcommand

/-- Reads arguments up to and with the subcommand; `options` holds the flags before them. -/
def Options.read (options : Options) : List Text → Except Refusal Options
  | [] => .error options.refuseEnd
  | argument :: arguments =>
    match Word.of argument with
    | .terminator => .error (options.refuseTerminated arguments)
    | .long name hasValue =>
      (options.setLong Flag.isGlobal name hasValue).bind fun options => options.read arguments
    | .letters letters => (options.setLetters letters).bind fun options => options.read arguments
    | .plain text =>
      if text = convertName then Options.ofConvert options.verbose arguments
      else if text = helpName then .error (helpOn arguments)
      else .error .invalidSubcommand

/-- The options that a command line asks for. -/
def Options.ofArguments (arguments : List Text) : Except Refusal Options :=
  Options.empty.read arguments

end Haml.Command
