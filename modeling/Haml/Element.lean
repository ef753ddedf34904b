import Haml.Attribute.Fragment
import Haml.Attribute.Set
import Haml.Code.Keyword
import Haml.Html
import Haml.Tag.Basic

/-!
# Writing elements

A tag line becomes one line of the page. If the element is left open for the lines nested under
it, the text that closes it is owed and comes later.
-/

namespace Haml

/-- A written tag line. -/
structure Element where
  markup : Text
  /-- The text that is owed once the nested lines have been written. -/
  closer : Option Text
  deriving DecidableEq, Repr

namespace Tag

/-- The entries of the class and id tokens. -/
def shorthandEntries (tag : Tag) : List Entry :=
  let classes :=
    if tag.classes = [] then [] else [.literal "class".toList (Text.join [' '] tag.classes)]
  let ids := if tag.ids = [] then [] else [.literal "id".toList (Text.join [' '] tag.ids)]
  classes ++ ids

def literalEntries (tag : Tag) : List Entry :=
  match tag.attributes with
  | some text => Attribute.entriesOf (Attribute.ofText text)
  | none => []

/-- The attributes of a tag: those of its tokens, and over them those of its attribute text. -/
def attributeSet (tag : Tag) : AttributeSet :=
  (AttributeSet.empty.merge tag.shorthandEntries).merge tag.literalEntries

def startTag (tag : Tag) : Text := '<' :: (tag.name ++ tag.attributeSet.render ++ ['>'])

/--
The written tag line. A void element has only a start tag. An output keeps the element open only if
its code ends with a block opener and lines are nested under it; then the block is ended first. Text
is dropped if lines are nested under the tag.
-/
def write (tag : Tag) (hasChildren : Bool) : Element :=
  let start := tag.startTag
  let finish := Html.endTag tag.name
  if Html.isVoid tag.name then ⟨start, none⟩
  else match tag.content with
    | .output escaping code =>
      let value := match escaping with
        | .escaped => Erb.output code
        | .unescaped => Erb.unescapedOutput code
      if hasChildren && Code.hasDoBlock code then ⟨start ++ value, some (Erb.endMarker ++ finish)⟩
      else ⟨start ++ value ++ finish, none⟩
    | .text text =>
      if hasChildren then ⟨start, some finish⟩
      else ⟨start ++ Interpolation.expand text ++ finish, none⟩

end Tag

end Haml
