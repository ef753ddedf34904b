import Haml.Text.Basic

/-!
# Tag lines

What a line that declares an element says.
-/

namespace Haml

/-- How an output after a tag is written. -/
inductive Escaping where
  | escaped
  | unescaped
  deriving DecidableEq, Repr

/-- What stands after a tag on its line. -/
inductive Content where
  /-- Running text; the empty text stands for nothing. -/
  | text (text : Text)
  /-- Code whose value is written. -/
  | output (escaping : Escaping) (code : Text)
  deriving DecidableEq, Repr

/-- One line that declares an element. -/
structure Tag where
  name : Text
  classes : List Text
  ids : List Text
  /-- The text between the attribute braces, if there are braces. -/
  attributes : Option Text
  content : Content
  deriving DecidableEq, Repr

end Haml
