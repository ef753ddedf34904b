import Haml.Text.Basic

/-!
# Kinds of statements

The characters that content starts with decide what it is. The first matching case wins.
-/

namespace Haml

/-- What a statement is, by its leading characters. -/
inductive Kind where
  | blank
  /-- The document type, `!!!`. -/
  | doctype
  /-- A comment for the readers of the template, `-#`. -/
  | comment
  /-- An element, `%name`. -/
  | element
  /-- A class on the generic element, `.name`. -/
  | classShorthand
  /-- An id on the generic element, `#name`. -/
  | idShorthand
  /-- The value of code, `=`. -/
  | output
  /-- Code that is run, `-`. -/
  | code
  /-- The value of code, escaped, `&=`. -/
  | escapedOutput
  /-- The value of code, as it is, `!=`. -/
  | unescapedOutput
  /-- A comment in the page, `/`. -/
  | htmlComment
  /-- The start of a filter, `:name`. -/
  | filter
  | text
  deriving DecidableEq, Repr

/-- The kind of a content. Text may start with an interpolation, which is not an id. -/
def Kind.of : Text → Kind
  | [] => .blank
  | '!' :: '!' :: '!' :: _ => .doctype
  | '-' :: '#' :: _ => .comment
  | '%' :: _ => .element
  | '.' :: _ => .classShorthand
  | '#' :: '{' :: _ => .text
  | '#' :: _ => .idShorthand
  | '=' :: _ => .output
  | '-' :: _ => .code
  | '&' :: '=' :: _ => .escapedOutput
  | '!' :: '=' :: _ => .unescapedOutput
  | '/' :: _ => .htmlComment
  | ':' :: _ => .filter
  | _ => .text

end Haml
