import Haml.Code.Comment
import Haml.Element
import Haml.Filter
import Haml.Tag.Parse

/-!
# Rendering statements

What one statement outside of filters becomes. Content that its kind cannot read is kept as it is.
-/

namespace Haml

/-- What a statement becomes. -/
inductive Rendering where
  /-- A line, and the text owed after the lines nested under the statement. -/
  | line (body : Text) (closer : Option Text)
  | filter (kind : FilterKind)
  /-- The content as it is. -/
  | verbatim
  deriving DecidableEq, Repr

namespace Rendering

/-- The end marker, if a block is open. -/
def endIf (isOpen : Bool) : Option Text := if isOpen then some Erb.endMarker else none

/-- A document type without version or encoding. -/
def ofDoctype (content : Text) : Rendering :=
  if content = "!!!".toList then .line "<!DOCTYPE html>".toList none else .verbatim

/-- A tag line. -/
def ofTag (content : Text) (hasChildren : Bool) : Rendering :=
  match Tag.parse? content with
  | some tag => .line (tag.write hasChildren).markup (tag.write hasChildren).closer
  | none => .verbatim

/-- The value of code; a comment after the code becomes a comment tag of its own. -/
def ofOutput (code : Text) : Rendering :=
  match Code.comment? code with
  | some (before, remark) =>
    let expression := Text.trimEnd before
    .line (Erb.output expression ++ ' ' :: Erb.comment (Text.trim remark))
      (endIf (Code.hasDoBlock expression))
  | none => .line (Erb.output code) (endIf (Code.hasDoBlock code))

/-- A statement of code. One that goes on with a block leaves the end to the block's first line. -/
def ofCode (content : Text) : Rendering :=
  let code := Text.trim (content.drop 1)
  .line (Erb.statement code) (endIf (!Code.isContinuation content && Code.opensBlock code))

def ofFilter (name : Text) : Rendering :=
  match FilterKind.ofName? name with
  | some kind => .filter kind
  | none => .verbatim

/-- The text with each escaped hyphen as a hyphen. -/
def unescapeHyphens : Text → Text
  | '\\' :: '-' :: cs => '-' :: unescapeHyphens cs
  | c :: cs => c :: unescapeHyphens cs
  | [] => []

/-- Running text. -/
def ofRunningText (content : Text) : Rendering :=
  .line (unescapeHyphens (Interpolation.expand content)) none

/-- What content becomes; `hasChildren` says whether lines are nested under it. -/
def ofContent (content : Text) (hasChildren : Bool) : Rendering :=
  match Kind.of content with
  | .blank => .line [] none
  | .doctype => ofDoctype content
  | .comment => .line (Erb.comment (Text.trim (content.drop 2))) none
  | .element => ofTag content hasChildren
  | .classShorthand => ofTag content hasChildren
  | .idShorthand => ofTag content hasChildren
  | .output => ofOutput (Text.trim (content.drop 1))
  | .code => ofCode content
  | .escapedOutput => .line (Erb.output (Text.trim (content.drop 2))) none
  | .unescapedOutput => .line (Erb.unescapedOutput (Text.trim (content.drop 2))) none
  | .htmlComment => .line ("<!-- ".toList ++ Text.trim (content.drop 1) ++ " -->".toList) none
  | .filter => ofFilter (Text.trim (content.drop 1))
  | .text => ofRunningText content

end Rendering

def Statement.render (statement : Statement) (hasChildren : Bool) : Rendering :=
  Rendering.ofContent statement.stripped hasChildren

end Haml
