import Haml.Text.Basic

/-!
# Attributes

An attribute has a key and a value. Keys are written with hyphens in the page; an underscore in the
template stands for one, unless the key already has a hyphen.
-/

namespace Haml

mutual

structure Attribute where
  key : Text
  value : Value

inductive Value where
  /-- A quoted string, decoded; its interpolations are already tags of the page. -/
  | string (text : Text)
  | number (digits : Text)
  | symbol (name : Text)
  | boolean (value : Bool)
  /-- Code, of which nothing is known. -/
  | code (code : Text)
  /-- A family of attributes in braces. -/
  | group (members : List Attribute)

end

/-- The key as it is written in the page. -/
def Attribute.normalizeKey (key : Text) : Text :=
  if key.contains '-' then key else key.map fun c => if c = '_' then '-' else c

def Value.isString : Value → Bool
  | .string _ => true
  | _ => false

end Haml
