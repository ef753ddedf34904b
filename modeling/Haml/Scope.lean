import Haml.Output

/-!
# Open scopes

A line that has lines nested under it may open a scope. The scope ends at the first later line
that is not deeper, and its closer is written before that line, at the indent of the line that
opened it. A line that goes on with a block, such as `- else`, leaves the scopes of its own indent
open.
-/

namespace Haml

/-- An open scope. -/
structure Frame where
  indent : Nat
  /-- What is written when it ends. -/
  closer : Text
  deriving DecidableEq, Repr

/-- The open scopes, and how many have been opened and closed so far. -/
structure Scopes where
  /-- The open scopes, the innermost one first. -/
  frames : List Frame
  opened : Nat
  closed : Nat
  deriving DecidableEq, Repr

/-- Whether a line ends the scope of a frame. -/
def Frame.endsAt (frame : Frame) (indent : Nat) (continuation : Bool) : Bool :=
  if continuation then indent < frame.indent else indent ≤ frame.indent

/-- The line that closes a frame. -/
def Frame.closeLine (frame : Frame) : Chunk := .indented frame.indent frame.closer

namespace Scopes

def empty : Scopes := ⟨[], 0, 0⟩

def push (scopes : Scopes) (frame : Frame) : Scopes :=
  { scopes with frames := frame :: scopes.frames, opened := scopes.opened + 1 }

/-- Closes the scopes that a line ends, the innermost first. -/
def closeFor (scopes : Scopes) (indent : Nat) (continuation : Bool) : List Chunk × Scopes :=
  let ended := scopes.frames.takeWhile (·.endsAt indent continuation)
  (ended.map Frame.closeLine,
    { scopes with
      frames := scopes.frames.dropWhile (·.endsAt indent continuation)
      closed := scopes.closed + ended.length })

def finish (scopes : Scopes) : List Chunk × Scopes :=
  (scopes.frames.map Frame.closeLine,
    { scopes with frames := [], closed := scopes.closed + scopes.frames.length })

end Scopes

end Haml
