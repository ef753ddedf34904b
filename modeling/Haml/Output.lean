import Haml.Text.Basic

/-!
# Output

The page is written in chunks. A chunk says what is written and where its line starts, so that a
reader of the chunks sees lines and closers as such.
-/

namespace Haml

/-- A piece of the page. -/
inductive Chunk where
  /-- A line after an indentation. -/
  | line (indentation body : Text)
  /-- A line after a number of spaces. -/
  | indented (width : Nat) (body : Text)
  /-- Text as it is. -/
  | raw (text : Text)
  deriving DecidableEq, Repr

def Chunk.text : Chunk → Text
  | .line indentation body => indentation ++ body ++ ['\n']
  | .indented width body => Text.spaces width ++ body ++ ['\n']
  | .raw text => text

def Chunk.concat (chunks : List Chunk) : Text := chunks.flatMap Chunk.text

end Haml
