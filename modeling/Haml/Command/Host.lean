import Haml.Command.Message

/-!
# Hosts

A run needs a place to work in: files, a standard input, and somewhere to print and to tell. Any
monad that offers these operations can run the program: the console of a real system as well as a
model.
-/

namespace Haml.Command

/-- What may be found at a path. -/
inductive NodeKind where
  | file
  | directory
  deriving DecidableEq, Repr

/-- The operations that a run is made of. -/
class Host (m : Type → Type) where
  kind? : Text → m (Option NodeKind)
  /--
  The files below the directory at a path, each by the names from the directory on. A directory is
  followed by what is in it, and the names in one directory are in increasing order.
  -/
  filesBelow : Text → m (List (List Text))
  read : Text → m (Except AccessError ByteArray)
  /-- Puts a file with the given content at a path, in the place of a file that is there. -/
  write : Text → ByteArray → m (Except AccessError Unit)
  remove : Text → m (Except AccessError Unit)
  /-- Why a path cannot be encoded in a report: a name on it may be no text. -/
  unencodable? : Text → m (Option Text)
  input : m ByteArray
  print : Text → m Unit
  tell : Message → m Unit

end Haml.Command
