import Haml.Code.Quoting

/-!
# Matching delimiters

Delimiters nest, and those inside quoted regions do not count.
-/

namespace Haml.Code

/--
Reads on from a standing and a depth to the closing delimiter that brings the depth to zero, and
gives the text before and after it. A closing delimiter at depth zero is an ordinary character.
-/
def splitAtClose (opening closing : Char) : Quoting → Nat → Text → Option (Text × Text)
  | _, _, [] => none
  | .quoted quote escaped, depth, c :: cs =>
    (splitAtClose opening closing ((Quoting.quoted quote escaped).next c) depth cs).map
      (Prod.map (c :: ·) id)
  | .code, depth, c :: cs =>
    if isQuote c then
      (splitAtClose opening closing (.quoted c false) depth cs).map (Prod.map (c :: ·) id)
    else if c = opening then
      (splitAtClose opening closing .code (depth + 1) cs).map (Prod.map (c :: ·) id)
    else if c = closing && depth = 1 then some ([], cs)
    else if c = closing then
      (splitAtClose opening closing .code (depth - 1) cs).map (Prod.map (c :: ·) id)
    else (splitAtClose opening closing .code depth cs).map (Prod.map (c :: ·) id)

/-- The text before and after the delimiter that closes the first opening one. -/
def splitAtFirstClose (opening closing : Char) (s : Text) : Option (Text × Text) :=
  splitAtClose opening closing .code 0 s

/-- The byte offset of the delimiter that closes the first opening one. -/
def closingOffset? (opening closing : Char) (s : Text) : Option Nat :=
  (splitAtFirstClose opening closing s).map fun parts => Text.byteSize parts.1

/-- A brace group that a text starts with. -/
structure Braced where
  content : Text
  remaining : Text
  deriving DecidableEq, Repr

/--
The brace group at the start of the text, leading blanks aside: none if the text does not start with
a brace or the brace is never closed.
-/
def braced? (s : Text) : Option Braced :=
  match Text.trimStart s with
  | '{' :: rest => (splitAtClose '{' '}' .code 1 rest).map fun parts => ⟨parts.1, parts.2⟩
  | _ => none

end Haml.Code
