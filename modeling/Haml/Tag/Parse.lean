import Haml.Code.Bracket
import Haml.Html
import Haml.Tag.Basic

/-!
# Reading tag lines

A tag line is `%name` or a class or id, then classes and ids, then attributes in braces, then
content: `%p.note#top{ title: 'x' }= value`. Without a name the element is the generic one.
-/

namespace Haml

/-- A class or id token. -/
inductive Shorthand where
  | className (name : Text)
  | idName (name : Text)
  deriving DecidableEq, Repr

namespace Shorthand

/-- A character that starts a token. -/
def isSigil (c : Char) : Bool := c = '.' || c = '#'

/-- A character that belongs to a token chain wherever it stands. -/
def isChainChar (c : Char) : Bool := Text.isNameChar c || c = ':' || c = '.'

/--
The chain of tokens that a text starts with, and what follows it. A hash belongs to the chain unless
it starts an interpolation.
-/
def chain : Text → Text × Text
  | [] => ([], [])
  | c :: cs =>
    if isChainChar c || c = '#' && cs.head? != some '{' then
      Prod.map (c :: ·) id (chain cs)
    else ([], c :: cs)

def ofSigil? (sigil : Char) (name : Text) : Option Shorthand :=
  if name = [] then none
  else if sigil = '.' then some (.className name)
  else some (.idName name)

/-- The tokens of a chain, each running from its sigil to the next. -/
def tokens : Text → List Shorthand
  | [] => []
  | c :: cs =>
    if isSigil c then
      (ofSigil? c (cs.takeWhile fun d => !isSigil d)).toList ++ tokens cs
    else tokens cs

def className? : Shorthand → Option Text
  | .className name => some name
  | .idName _ => none

def idName? : Shorthand → Option Text
  | .className _ => none
  | .idName name => some name

end Shorthand

/-- The content that the text after a tag stands for. -/
def Content.ofText (s : Text) : Content :=
  match s with
  | '!' :: '=' :: code => .output .unescaped (Text.trim code)
  | '&' :: '=' :: code => .output .escaped (Text.trim code)
  | '=' :: code => .output .escaped (Text.trim code)
  | _ => .text s

namespace Tag

/-- The attribute text and what follows the braces, if the text starts with closed braces. -/
def splitAttributes (s : Text) : Option Text × Text :=
  match Code.braced? s with
  | some group => (some group.content, group.remaining)
  | none => (none, s)

/-- The tag with a name and tokens, and with attributes and content read from what follows. -/
def ofParts (name : Text) (tokens : List Shorthand) (rest : Text) : Tag :=
  let (attributes, following) := splitAttributes rest
  { name
    classes := tokens.filterMap Shorthand.className?
    ids := tokens.filterMap Shorthand.idName?
    attributes
    content := Content.ofText (Text.trim following) }

/-- The token chain that a text starts with, if it starts with a sigil, and what follows. -/
def splitShorthand (s : Text) : List Shorthand × Text :=
  if s.head?.any Shorthand.isSigil then
    let (chain, rest) := Shorthand.chain s
    (Shorthand.tokens chain, rest)
  else ([], s)

/--
The tag that a line's content declares. There is none if the content starts with neither `%` and a
name nor a class or id token.
-/
def parse? : Text → Option Tag
  | '%' :: cs =>
    let name := cs.takeWhile Text.isNameChar
    if name = [] then none
    else
      let (tokens, rest) := splitShorthand (cs.dropWhile Text.isNameChar)
      some (ofParts name tokens rest)
  | s =>
    let (tokens, rest) := splitShorthand s
    if tokens = [] then none else some (ofParts Html.genericElement tokens rest)

end Tag

end Haml
