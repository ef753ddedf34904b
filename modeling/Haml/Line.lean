import Haml.Text.Basic

/-!
# Source lines

A document is read as lines. A line knows its text and whether a newline ended it in the document;
only the last line of a document may lack one. A carriage return right before the newline belongs to
the line ending.
-/

namespace Haml

/-- One line of a document. -/
structure Line where
  /-- The line without its ending. -/
  text : Text
  /-- Whether a newline ended the line. -/
  terminated : Bool
  deriving DecidableEq, Repr

namespace Line

/-- The line that raw text stands for: its text up to the line ending, if it has one. -/
def ofRaw (raw : Text) : Line :=
  match Text.beforeLast? '\n' raw with
  | some body => ⟨(Text.beforeLast? '\r' body).getD body, true⟩
  | none => ⟨raw, false⟩

def indent (line : Line) : Nat := Text.indent line.text

def stripped (line : Line) : Text := Text.trim line.text

def isBlank (line : Line) : Bool := line.stripped.isEmpty

/-- The document cut after every newline. -/
def rawTexts : Text → List Text
  | [] => []
  | c :: cs => if c = '\n' then [c] :: rawTexts cs else Text.consHead c (rawTexts cs)

def ofDocument (document : Text) : List Line := (rawTexts document).map ofRaw

end Line

end Haml
