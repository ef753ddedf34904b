import Haml.Interpolation

/-!
# Quoted values

A quoted value is a whole literal: after a backslash any character but a newline is part of it,
and no quote of its own kind stands in it unhidden. Quotes and backslashes lose the backslash that
hides them; before any other character the backslash stays. A double-quoted value may hold
interpolations.
-/

namespace Haml.Attribute

/--
What stands before the closing quote, if that is the last character and the only unhidden one.
-/
def quotedBody? (quote : Char) : Text → Option Text
  | [] => none
  | [c] => if c = quote then some [] else none
  | '\\' :: c :: cs => if c = '\n' then none else (quotedBody? quote cs).map ('\\' :: c :: ·)
  | c :: cs => if c = quote then none else (quotedBody? quote cs).map (c :: ·)

/-- A character that loses the backslash before it. -/
def isHidden (c : Char) : Bool := c = '"' || c = '\'' || c = '\\'

/-- The text that the body of a literal stands for. -/
def unescape : Text → Text
  | '\\' :: c :: cs => if isHidden c then c :: unescape cs else '\\' :: c :: unescape cs
  | c :: cs => c :: unescape cs
  | [] => []

def quotedText? : Text → Option Text
  | '"' :: cs => (quotedBody? '"' cs).map fun body => Interpolation.expand (unescape body)
  | '\'' :: cs => (quotedBody? '\'' cs).map unescape
  | _ => none

end Haml.Attribute
