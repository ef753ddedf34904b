import Haml.Command.Run
import Haml.Elapsed

/-!
# The program

The command on the files and streams of a real system. Whatever is decided is decided in the
library; here the operations of a host are carried out.
-/

namespace Haml.Command

/-- Work on a real system, with the time in nanoseconds at which the run has started. -/
abbrev Console := ReaderT Nat IO

def entry (path : Text) : IO.FS.DirEntry := { root := String.ofList path, fileName := "" }

def kindOf (metadata : IO.FS.Metadata) : Option NodeKind :=
  match metadata.type with
  | .dir => some .directory
  | .file => some .file
  | _ => none

/-- What is at a path; links are followed. -/
def nodeKind? (path : Text) : IO (Option NodeKind) := do
  try
    return kindOf (← (entry path).root.metadata)
  catch _ => return none

/-- The files below a directory, with the names that lead to them. Links are not followed. -/
partial def walkEntries (names : List Text) (entries : Array IO.FS.DirEntry) :
    IO (List (List Text)) := do
  let mut found := []
  for item in entries.qsort (·.fileName < ·.fileName) do
    let place := names ++ [item.fileName.toList]
    try
      match kindOf (← item.path.symlinkMetadata) with
      | some .directory => found := found ++ (← walkEntries place (← item.path.readDir))
      | some .file => found := found ++ [place]
      | none => pure ()
    catch _ => pure ()
  return found

/-- Does an operation on a path and gives the reason why it fails. -/
def attempt {α : Type} (path : Text) (operation : IO α) : IO (Except AccessError α) := do
  try
    return .ok (← operation)
  catch error =>
    if (← nodeKind? path) == some .directory then return .error .isDirectory
    else return .error (.other error.toString.toList)

/-- All that is left on a stream. -/
partial def readAll (stream : IO.FS.Stream) (bytes : ByteArray) : IO ByteArray := do
  let more ← stream.read 65536
  if more.isEmpty then return bytes else readAll stream (bytes ++ more)

instance : Host Console where
  kind? path := fun _ => nodeKind? path
  filesBelow path := fun _ => do
    try
      walkEntries [] (← (entry path).root.readDir)
    catch _ => return []
  read path := fun _ => attempt path (IO.FS.readBinFile (entry path).root)
  write path content := fun _ => attempt path (IO.FS.writeBinFile (entry path).root content)
  remove path := fun _ => attempt path (IO.FS.removeFile (entry path).root)
  unencodable? _ := fun _ => return none
  input := fun _ => do readAll (← IO.getStdin) .empty
  print text := fun _ => IO.print (String.ofList text)
  tell message := fun start => do
    let elapsed := Elapsed.text (((← IO.monoNanosNow) - start) / 1000)
    IO.eprint (String.ofList (message.render elapsed))

end Haml.Command

/-- Reads the command line, runs the command, and gives its exit code. -/
def main (arguments : List String) : IO UInt32 := do
  match Haml.Command.Options.ofArguments (arguments.map String.toList) with
  | .error refusal =>
    IO.eprintln (String.ofList refusal.message)
    return refusal.exitCode.toUInt32
  | .ok options =>
    let code ← (Haml.Command.run options : Haml.Command.Console Nat).run (← IO.monoNanosNow)
    return code.toUInt32
