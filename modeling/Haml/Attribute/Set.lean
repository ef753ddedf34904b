import Haml.Attribute.Entry
import Haml.Attribute.Merge

/-!
# Attribute sets

The entries of one element, at most one for each key, in the order in which the keys came.
-/

namespace Haml

structure AttributeSet where
  /-- The entries, in the order in which they are written. -/
  entries : List Entry
  deriving DecidableEq, Repr

namespace AttributeSet

def empty : AttributeSet := ⟨[]⟩

def get? (set : AttributeSet) (key : Text) : Option EntryValue :=
  (set.entries.find? (·.key = key)).map Entry.value

/--
The value of a key that had a value and is given another: classes and styles are merged if both are
texts, and otherwise the new value takes the place of the old one.
-/
def combine (key : Text) : EntryValue → EntryValue → EntryValue
  | .text base, .text additional =>
    if key = "class".toList then .text (Attribute.mergeClass base additional)
    else if key = "style".toList then .text (Attribute.mergeStyle base additional)
    else .text additional
  | _, value => value

/-- The entries with one more: in the place of the first with its key, or else at the end. -/
def insertEntry (entry : Entry) : List Entry → List Entry
  | [] => [entry]
  | e :: es =>
    if e.key = entry.key then ⟨e.key, combine e.key e.value entry.value⟩ :: es
    else e :: insertEntry entry es

def insert (set : AttributeSet) (entry : Entry) : AttributeSet :=
  ⟨insertEntry entry set.entries⟩

/-- The set with a flag for the key of `entry`, if it says nothing of that key. -/
def insertFlag (set : AttributeSet) (entry : Entry) : AttributeSet :=
  if (set.get? entry.key).isNone then ⟨set.entries ++ [entry]⟩ else set

/-- The set with more entries: first those with a text, then the flags. -/
def merge (set : AttributeSet) (entries : List Entry) : AttributeSet :=
  let valued := (entries.filter (·.value ≠ .flag)).foldl insert set
  (entries.filter (·.value = .flag)).foldl insertFlag valued

/-- The written entries, each after a space. -/
def render (set : AttributeSet) : Text := set.entries.flatMap fun entry => ' ' :: entry.render

end AttributeSet

end Haml
