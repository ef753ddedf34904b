import Haml.Attribute.Value
import Haml.Erb

/-!
# Entries

An entry is an attribute as it is written in the page: a key with a text between double quotes, or
a key alone.
-/

namespace Haml

/-- What an entry says of its key. -/
inductive EntryValue where
  | text (text : Text)
  | flag
  deriving DecidableEq, Repr

/-- One attribute as it is written. -/
structure Entry where
  key : Text
  value : EntryValue
  deriving DecidableEq, Repr

namespace Entry

/-- The text with its double quotes written as character references. -/
def escapeQuotes (s : Text) : Text :=
  s.flatMap fun c => if c = '"' then "&quot;".toList else [c]

def literal (key text : Text) : Entry := ⟨key, .text (escapeQuotes text)⟩

/-- The entry whose text is the value of code. -/
def expression (key code : Text) : Entry := ⟨key, .text (Erb.output code)⟩

def flag (key : Text) : Entry := ⟨key, .flag⟩

def render (entry : Entry) : Text :=
  match entry.value with
  | .text text => entry.key ++ '=' :: '"' :: (text ++ ['"'])
  | .flag => entry.key

end Entry

mutual

/--
The entries of an attribute: none for `false`, and for a group those of its members, with the
group's key and a hyphen before theirs.
-/
def Attribute.entries : Attribute → List Entry
  | ⟨key, value⟩ => value.entries key

def Value.entries (key : Text) : Value → List Entry
  | .string text => [.literal key text]
  | .number digits => [.literal key digits]
  | .symbol name => [.literal key name]
  | .boolean true => [.flag key]
  | .boolean false => []
  | .code code => [.expression key code]
  | .group members =>
    (Attribute.entriesOf members).map fun entry => ⟨key ++ '-' :: entry.key, entry.value⟩

def Attribute.entriesOf : List Attribute → List Entry
  | [] => []
  | first :: rest => first.entries ++ Attribute.entriesOf rest

end

end Haml
