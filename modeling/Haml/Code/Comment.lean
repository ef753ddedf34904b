import Haml.Code.Quoting

/-!
# Comments at the end of code

A comment starts at the first blank followed by a hash that is neither in a string literal nor the
opening of an interpolation. For string literals a backslash hides the character after it wherever
it stands, so that two backslashes hide nothing from the quote after them.
-/

namespace Haml.Code

/-- Where a left-to-right reading stands with respect to string literals. -/
structure LiteralScan where
  quote : Option Char
  /-- Whether a backslash hides the next character. -/
  escaped : Bool
  deriving DecidableEq, Repr

namespace LiteralScan

def start : LiteralScan := ⟨none, false⟩

def next (scan : LiteralScan) (c : Char) : LiteralScan :=
  if scan.escaped then ⟨scan.quote, false⟩
  else if c = '\\' then ⟨scan.quote, true⟩
  else match scan.quote with
    | some quote => if c = quote then ⟨none, false⟩ else scan
    | none => if isQuote c then ⟨some c, false⟩ else scan

end LiteralScan

/-- Whether a string literal is open at the end of `before`. -/
def insideLiteral (before : Text) : Bool :=
  (before.foldl LiteralScan.next .start).quote.isSome

/-- Every way to cut the text at a blank followed by a hash, from left to right. -/
def hashCuts : Text → List (Text × Text)
  | [] => []
  | c :: cs =>
    let later := (hashCuts cs).map (Prod.map (c :: ·) id)
    match Text.after? " #".toList (c :: cs) with
    | some rest => ([], rest) :: later
    | none => later

/-- Whether a cut is the start of a comment. -/
def isCommentCut (cut : Text × Text) : Bool :=
  cut.2.head? != some '{' && !insideLiteral cut.1

/-- The code before its comment and the comment's text, if there is a comment. -/
def comment? (code : Text) : Option (Text × Text) :=
  (hashCuts code).find? isCommentCut

/-- The byte offset of the blank that starts the comment. -/
def commentOffset? (code : Text) : Option Nat :=
  (comment? code).map fun parts => Text.byteSize parts.1

end Haml.Code
