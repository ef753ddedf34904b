import Haml.Text.Property

/-!
# Character classes

The classes by which templates, attribute literals and Ruby code are read. The blank, word, digit
and alphanumeric classes cover all of Unicode; the classes of tag names and identifier starts are
ASCII by definition.

Two editions of the character database are in force. Keys, symbols and integers of attribute
literals are read by edition 16, and the keywords of code by edition 17. The editions agree on
blanks.
-/

namespace Haml.Text

/--
Membership in a class given by a predicate below U+0080 and, from there on, by tables of ranges less
the ranges of one more table.
-/
def inClass (ascii : Char → Bool) (tables : List (List Property.Range))
    (less : List Property.Range) (c : Char) : Bool :=
  if c.toNat < 0x80 then ascii c
  else (tables.any fun table => Property.covers table c.toNat) && !Property.covers less c.toNat

/-- White space: what trimming removes. -/
def isBlank : Char → Bool :=
  inClass (fun c => c = ' ' || 9 ≤ c.toNat && c.toNat ≤ 13) [Property.whiteSpace] []

/-- A decimal digit of any script, by edition 16 of the character database. -/
def isDigit : Char → Bool :=
  inClass Char.isDigit [Property.decimalDigit] Property.assignedIn17

/--
A word character: a letter, mark, decimal digit, connector or join control, by edition 16 of the
character database.
-/
def isWord : Char → Bool :=
  inClass (fun c => c.isAlphanum || c = '_')
    [Property.alphabetic, Property.mark, Property.decimalDigit, Property.connector,
      Property.joinControl]
    Property.assignedIn17

/-- A letter or a number of any kind, by edition 17 of the character database. -/
def isAlphanumeric : Char → Bool :=
  inClass Char.isAlphanum [Property.alphabetic, Property.number] []

/-- A space or a tab: the characters that count as indentation. -/
def isIndent (c : Char) : Bool := c = ' ' || c = '\t'

/-- ASCII white space, which separates the tokens of a class list; a vertical tab is not one. -/
def isAsciiBlank (c : Char) : Bool :=
  c = ' ' || c = '\t' || c = '\n' || c = '\x0c' || c = '\r'

/-- The first character of an identifier. -/
def isIdentStart (c : Char) : Bool := c.isAlpha || c = '_'

def isNameChar (c : Char) : Bool := c.isAlphanum || c = '_' || c = '-'

end Haml.Text
