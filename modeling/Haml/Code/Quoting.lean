import Haml.Text.Basic

/-!
# Quoted regions of embedded code

Embedded code is read only as far as its quotes and brackets go. A quoted region starts at a
single or double quote and ends at the next equal quote that does not come right after a
backslash. Only the character before the quote counts: in a region that ends in two backslashes,
the quote after them does not close it.
-/

namespace Haml.Code

def isQuote (c : Char) : Bool := c = '"' || c = '\''

/-- Where a left-to-right reading of code stands with respect to quotes. -/
inductive Quoting where
  | code
  /-- In a region opened by `quote`; `escaped` says that the last character was a backslash. -/
  | quoted (quote : Char) (escaped : Bool)
  deriving DecidableEq, Repr

def Quoting.next : Quoting → Char → Quoting
  | .code, c => if isQuote c then .quoted c false else .code
  | .quoted quote escaped, c =>
    if c = quote && !escaped then .code else .quoted quote (c = '\\')

end Haml.Code
