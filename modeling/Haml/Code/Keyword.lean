import Haml.Text.Basic

/-!
# Keywords of embedded code

Which lines of code open a block that needs an end, and which go on with one that is open.
-/

namespace Haml.Code

def blockKeywords : List Text :=
  ["if", "unless", "case", "while", "until", "for", "begin"].map String.toList

/-- The keywords that go on with an open block. -/
def continuationKeywords : List Text :=
  ["else", "elsif", "when", "in", "rescue", "ensure"].map String.toList

/-- The word that code starts with; it may be empty. -/
def firstWord (code : Text) : Text :=
  code.takeWhile fun c => Text.isAlphanumeric c || c = '_'

/-- Whether a line of code, its dash included, goes on with an open block. -/
def isContinuation : Text → Bool
  | '-' :: code =>
    code.head? != some '#' && continuationKeywords.contains (firstWord (Text.trimStart code))
  | _ => false

/-- Whether reversed code starts with the word `do`, read backwards. -/
def startsWithDoReversed : Text → Bool
  | 'o' :: 'd' :: before => before.head?.all Text.isBlank
  | _ => false

/-- Whether code ends with `do`, or with `do` and block parameters between bars. -/
def hasDoBlock (code : Text) : Bool :=
  let reversed := code.reverse.dropWhile Text.isBlank
  startsWithDoReversed reversed ||
    match reversed with
    | '|' :: parameters =>
      match parameters.dropWhile (· ≠ '|') with
      | '|' :: before => startsWithDoReversed (before.dropWhile Text.isBlank)
      | _ => false
    | _ => false

/-- Whether a statement opens a block that needs an end. -/
def opensBlock (code : Text) : Bool :=
  blockKeywords.contains (firstWord (Text.trim code)) || hasDoBlock (Text.trim code)

end Haml.Code
