import Haml.Text.Basic

/-!
# JSON documents

The values of a report and their two written forms: on one line, and indented by two spaces a level.
-/

namespace Haml

/-- A JSON value of a report. -/
inductive Json where
  | string (text : Text)
  | number (value : Nat)
  | boolean (value : Bool)
  | array (items : List Json)
  | object (members : List (Text × Json))

namespace Json

/--
A character inside a JSON string; only quotes, backslashes and control characters are escaped.
-/
def escape (c : Char) : Text :=
  if c = '"' then ['\\', '"']
  else if c = '\\' then ['\\', '\\']
  else if c = '\n' then ['\\', 'n']
  else if c = '\r' then ['\\', 'r']
  else if c = '\t' then ['\\', 't']
  else if c = '\x08' then ['\\', 'b']
  else if c = '\x0c' then ['\\', 'f']
  else if c.toNat < 0x20 then
    "\\u00".toList ++ [Nat.digitChar (c.toNat / 16), Nat.digitChar (c.toNat % 16)]
  else [c]

/-- A text as a JSON string. -/
def quote (s : Text) : Text := '"' :: (s.flatMap escape ++ ['"'])

def truth (value : Bool) : Text := if value then "true".toList else "false".toList

mutual

/-- A value on one line, without blanks. -/
def compact : Json → Text
  | .string text => quote text
  | .number value => Text.ofNat value
  | .boolean value => truth value
  | .array items => '[' :: (Text.join [','] (compactItems items) ++ [']'])
  | .object members => '{' :: (Text.join [','] (compactMembers members) ++ ['}'])

def compactItems : List Json → List Text
  | [] => []
  | item :: items => item.compact :: compactItems items

def compactMembers : List (Text × Json) → List Text
  | [] => []
  | (key, value) :: members => (quote key ++ ':' :: value.compact) :: compactMembers members

end

/-- Parts on lines of their own between brackets, one level deeper than the brackets. -/
def block (depth : Nat) (opening closing : Char) (parts : List Text) : Text :=
  if parts = [] then [opening, closing]
  else
    let outer := '\n' :: Text.spaces (2 * depth)
    let inner := outer ++ [' ', ' ']
    opening :: (inner ++ Text.join (',' :: inner) parts ++ outer ++ [closing])

mutual

/-- A value over several lines, inside of `depth` levels of brackets. -/
def pretty (depth : Nat) : Json → Text
  | .string text => quote text
  | .number value => Text.ofNat value
  | .boolean value => truth value
  | .array items => block depth '[' ']' (prettyItems (depth + 1) items)
  | .object members => block depth '{' '}' (prettyMembers (depth + 1) members)

def prettyItems (depth : Nat) : List Json → List Text
  | [] => []
  | item :: items => item.pretty depth :: prettyItems depth items

def prettyMembers (depth : Nat) : List (Text × Json) → List Text
  | [] => []
  | (key, value) :: members =>
    (quote key ++ ':' :: ' ' :: value.pretty depth) :: prettyMembers depth members

end

end Json

end Haml
