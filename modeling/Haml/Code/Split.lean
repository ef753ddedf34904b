import Haml.Code.Quoting

/-!
# Splitting at top level

A list of fragments is cut at the separators that stand outside all quotes and brackets. Brackets
are only counted: any closing one takes back any opening one, and one too many counts for nothing.
The depth has no bound; one that is kept in 32 bits with a sign is the same for texts with fewer than
2^31 open brackets.
-/

namespace Haml.Code

def isOpening (c : Char) : Bool := c = '(' || c = '[' || c = '{'

def isClosing (c : Char) : Bool := c = ')' || c = ']' || c = '}'

/--
The pieces between separators, read on from a standing and a bracket depth; there is always one.
-/
def pieces (separator : Char) : Quoting → Nat → Text → List Text
  | _, _, [] => [[]]
  | .quoted quote escaped, depth, c :: cs =>
    Text.consHead c (pieces separator ((Quoting.quoted quote escaped).next c) depth cs)
  | .code, depth, c :: cs =>
    if isQuote c then Text.consHead c (pieces separator (.quoted c false) depth cs)
    else if isOpening c then Text.consHead c (pieces separator .code (depth + 1) cs)
    else if isClosing c then Text.consHead c (pieces separator .code (depth - 1) cs)
    else if c = separator && depth = 0 then [] :: pieces separator .code 0 cs
    else Text.consHead c (pieces separator .code depth cs)

/-- The list without its last piece if that one is empty. -/
def dropEmptyLast (pieces : List Text) : List Text :=
  if pieces.getLast? = some [] then pieces.dropLast else pieces

/-- The parts of a text between top-level separators; an empty part at the end is not one. -/
def split (separator : Char) (s : Text) : List Text :=
  dropEmptyLast (pieces separator .code 0 s)

end Haml.Code
