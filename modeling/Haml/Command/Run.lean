import Haml.Command.Arguments
import Haml.Command.Host
import Haml.Command.Report
import Haml.Path

/-!
# Running the command

A run converts one template from standard input, or the template at a path, or every template
below a directory. It stops at the first template that cannot be read or written. Reports are
encoded when all templates are converted, and standard output is written only once everything has
succeeded.
-/

namespace Haml.Command

variable {m : Type → Type} [Monad m] [Host m]

/-- Does an operation on the file at a path, and fails where it fails. -/
def accessing {α : Type} (path : Text) (operation : m (Except AccessError α)) :
    ExceptT Failure m α :=
  ExceptT.mk do
    match ← operation with
    | .ok value => pure (.ok value)
    | .error error => pure (.error (.access path error))

def decode (path : Text) (bytes : ByteArray) : ExceptT Failure m Text :=
  match Text.ofBytes? bytes with
  | some text => pure text
  | none => throw (.access path .notUtf8)

/-- Converts the template on standard input and prints the page or a report on it. -/
def convertInput (options : Options) : ExceptT Failure m Unit := do
  let source ← decode "<stdin>".toList (← (Host.input : m ByteArray))
  let conversion := convert source
  (Host.print (if options.json then conversion.toJson.compact ++ ['\n'] else conversion.page) :
    m Unit)

/-- Writes the page of a template, and removes the template if that is asked for. -/
def writePage (options : Options) (source output page : Text) : ExceptT Failure m Unit := do
  accessing output (Host.write output page.toBytes)
  if options.deleteSource then accessing source (Host.remove source)

/-- Converts the template at a path. -/
def convertFile (options : Options) (source : Text) : ExceptT Failure m FileReport := do
  let text ← decode source (← accessing source (Host.read source))
  let conversion := convert text
  let output := Path.outputPath source
  if !options.dryRun then writePage options source output conversion.page
  (Host.tell (.converted output options.dryRun) : m Unit)
  pure { source, output, written := !options.dryRun, conversion }

/-- Converts the templates at some paths, one after the other. -/
def convertFiles (options : Options) : List Text → ExceptT Failure m (List FileReport)
  | [] => pure []
  | source :: sources => do
    let report ← convertFile options source
    let reports ← convertFiles options sources
    pure (report :: reports)

/-- The templates that a path stands for. -/
def templates (path : Text) : ExceptT Failure m (List Text) := do
  match ← (Host.kind? path : m (Option NodeKind)) with
  | some .file => if Path.isTemplate path then pure [path] else throw (.notTemplate path)
  | some .directory =>
    let below ← (Host.filesBelow path : m (List (List Text)))
    let sources := (below.map (Path.below path)).filter Path.isTemplate
    if sources = [] then throw (.noTemplates path) else pure sources
  | none => throw (.access path .notFound)

/-- Fails if a path cannot be encoded. -/
def checkPath (path : Text) : ExceptT Failure m Unit := do
  match ← (Host.unencodable? path : m (Option Text)) with
  | some reason => throw (.encoding reason)
  | none => pure ()

def encode (report : FileReport) : ExceptT Failure m Json := do
  checkPath report.source
  checkPath report.output
  pure report.toJson

/-- Encodes reports in their order, up to the first one that cannot be. -/
def encodeAll : List FileReport → ExceptT Failure m (List Json)
  | [] => pure []
  | report :: reports => do
    let document ← encode report
    let documents ← encodeAll reports
    pure (document :: documents)

/-- Prints reports if that is asked for. -/
def printReports (options : Options) (reports : List FileReport) : ExceptT Failure m Unit := do
  if options.json then
    let documents ← encodeAll reports
    (Host.print ((Json.array documents).pretty 0 ++ ['\n']) : m Unit)

/-- Converts the templates that a path stands for, and reports on them. -/
def convertPath (options : Options) (path : Text) : ExceptT Failure m Unit := do
  let reports ← convertFiles options (← templates path)
  printReports options reports
  (Host.tell (.summary reports.length options.dryRun) : m Unit)

/-- Does what the options ask for. Standard input goes before a path. -/
def convertAny (options : Options) : ExceptT Failure m Unit :=
  if options.stdin then convertInput options
  else match options.path with
    | some path => convertPath options path
    | none => throw .missingInput

/-- Runs the command, tells its failure if there is one, and gives the exit code. -/
def run (options : Options) : m Nat := do
  match ← (convertAny options).run with
  | .ok () => pure 0
  | .error failure =>
    Host.tell (.failed failure)
    pure 1

end Haml.Command
