import Haml.Text.Class

/-!
# Texts

A text is the list of its characters. This module holds what every part of the library does with
texts: trimming, fixed openings and endings, joining, and measuring in bytes of UTF-8.

A place inside a text is given by the two parts that it separates. Where a byte offset is wanted, it
is the `byteSize` of the first part, and so always lies on a character boundary.
-/

namespace Haml

/-- A text, character by character. -/
abbrev Text := List Char

namespace Text

/-! ## Trimming -/

def trimStart (s : Text) : Text := s.dropWhile isBlank

def trimEnd (s : Text) : Text := (s.reverse.dropWhile isBlank).reverse

def trim (s : Text) : Text := trimEnd (trimStart s)

/-! ## Openings and endings -/

/-- What follows `opening` at the start of the text, if the text starts with it. -/
def after? : (opening : Text) → Text → Option Text
  | [], s => some s
  | _ :: _, [] => none
  | o :: os, c :: cs => if o = c then after? os cs else none

/-- The text without the character `c` at its end, if it ends with it. -/
def beforeLast? (c : Char) (s : Text) : Option Text :=
  if s.getLast? = some c then some s.dropLast else none

/-! ## Joining -/

/-- The parts one after the other, with `separator` between neighbours. -/
def join (separator : Text) (parts : List Text) : Text := List.intercalate separator parts

/-- Puts a character in front of the first part. -/
def consHead (c : Char) : List Text → List Text
  | [] => [[c]]
  | part :: parts => (c :: part) :: parts

def spaces (n : Nat) : Text := List.replicate n ' '

def ofNat (n : Nat) : Text := Nat.toDigits 10 n

/-! ## Indentation -/

/-- The leading spaces and tabs, exactly as written. -/
def indentation (s : Text) : Text := s.takeWhile isIndent

/-- The width of the leading spaces and tabs, each counting one. -/
def indent (s : Text) : Nat := (indentation s).length

/-! ## Bytes -/

/-- The length of the text in bytes of UTF-8. -/
def byteSize : Text → Nat
  | [] => 0
  | c :: cs => c.utf8Size + byteSize cs

/-- The longest opening of the text that takes at most `n` bytes. -/
def takeBytes : Nat → Text → Text
  | _, [] => []
  | n, c :: cs => if c.utf8Size ≤ n then c :: takeBytes (n - c.utf8Size) cs else []

def toBytes (s : Text) : ByteArray := (String.ofList s).toUTF8

/-- The text that the bytes encode, if they are valid UTF-8. -/
def ofBytes? (bytes : ByteArray) : Option Text := (String.fromUTF8? bytes).map String.toList

end Text

end Haml
