import Haml.Statement.Basic

/-!
# Folding lines into statements

Two constructs span lines. An element may leave its attribute braces open at the end of the line:

```text
.alert{
  class: name,
  role: 'alert'
}
  text
```

is one statement, `.alert{ class: name, role: 'alert' } text`. And an output may go on over deeper
lines after a comma:

```text
= field :value,
    collection: options
```

is `= field :value, collection: options`. Every other line is a statement by itself.
-/

namespace Haml.Statement

/--
The contents of the accepted lines that come next, and the number of lines taken. Blank lines
between accepted lines are taken without content; those after the last accepted line stay.
-/
def absorb (accept : Line → Bool) : List Line → List Text × Nat
  | [] => ([], 0)
  | line :: rest =>
    if line.isBlank then
      match absorb accept rest with
      | (_, 0) => ([], 0)
      | (contents, taken + 1) => (contents, taken + 2)
    else if accept line then
      let (contents, taken) := absorb accept rest
      (line.stripped :: contents, taken + 1)
    else ([], 0)

/-! ## Attribute blocks -/

/-- Whether content starts like an element: a name after `%`, or a class or id. -/
def startsElement : Text → Bool
  | '%' :: c :: _ => Text.isNameChar c
  | '.' :: c :: _ => Text.isIdentStart c || c = '-'
  | '#' :: c :: _ => Text.isIdentStart c || c = '-'
  | _ => false

/-- A character that may stand between the start of an element and its open brace. -/
def isOpenerChar (c : Char) : Bool := c ≠ '{' && c ≠ '='

/--
The element of a line that opens an attribute block: its content up to the brace that ends it, if
that is its only brace and no equals sign stands before it.
-/
def blockOpener? (content : Text) : Option Text :=
  if startsElement content && content.dropWhile isOpenerChar = ['{'] then
    some (Text.trimEnd (content.takeWhile isOpenerChar))
  else none

/-- An attribute line without the comma at its end. -/
def withoutComma (content : Text) : Text :=
  Text.trimEnd ((Text.beforeLast? ',' content).getD content)

/--
The attribute fragments up to the lone closing brace, and the number of lines up to and with it.
There is no block if the brace never comes or a line before it is not deeper than the opener.
-/
def blockAttributes? (indent : Nat) : List Line → Option (List Text × Nat)
  | [] => none
  | line :: rest =>
    if line.isBlank then
      (blockAttributes? indent rest).map (Prod.map id (· + 1))
    else if line.stripped = ['}'] then some ([], 1)
    else if line.indent ≤ indent then none
    else
      let fragment := withoutComma line.stripped
      (blockAttributes? indent rest).map
        (Prod.map (fun fragments => if fragment = [] then fragments else fragment :: fragments)
          (· + 1))

/--
The lines of text after a block, all at the indent of the first one and deeper than the opener,
which become the element's content.
-/
def blockContent (indent : Nat) (following : List Line) : List Text × Nat :=
  match following.find? (!·.isBlank) with
  | some first =>
    absorb (fun line => indent < line.indent && Kind.of line.stripped = .text
      && line.indent = first.indent) following
  | none => ([], 0)

/-- The statement of an element whose attribute block starts at the end of `line`. -/
def block? (line : Line) (following : List Line) : Option Statement :=
  match blockOpener? line.stripped with
  | none => none
  | some element =>
    match blockAttributes? line.indent following with
    | none => none
    | some (fragments, taken) =>
      let (contents, more) := blockContent line.indent (following.drop taken)
      some (folded
        (line.text.takeWhile Text.isBlank ++ element ++ "\x7b ".toList
          ++ Text.join ", ".toList fragments ++ " \x7d".toList
          ++ contents.flatMap (' ' :: ·))
        (1 + taken + more))

/-! ## Continued outputs -/

/-- Whether content is an output that goes on after its last comma. -/
def isContinued (content : Text) : Bool :=
  content.head? = some '=' && content.getLast? = some ','

/-- The statement of an output that takes the deeper lines after it. -/
def continued (line : Line) (following : List Line) : Statement :=
  let (contents, taken) := absorb (fun next => line.indent < next.indent) following
  folded (Text.trimEnd line.text ++ contents.flatMap (' ' :: ·)) (1 + taken)

/-! ## Statements of a document -/

/-- The statement that starts at `line`. -/
def first (line : Line) (following : List Line) : Statement :=
  match block? line following with
  | some statement => statement
  | none => if isContinued line.stripped then continued line following else single line

/-- The statements of the lines: each takes as many lines as it spans. -/
def ofLines : List Line → List Statement
  | [] => []
  | line :: following =>
    first line following :: ofLines (following.drop ((first line following).span - 1))
termination_by lines => lines.length
decreasing_by simp only [List.length_drop, List.length_cons]; omega

/-- The statements of a document. -/
def ofDocument (document : Text) : List Statement := ofLines (Line.ofDocument document)

end Haml.Statement
