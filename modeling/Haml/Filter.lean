import Haml.Statement.Basic
import Haml.Output

/-!
# Filters

A filter copies the lines under it between two delimiters. At most one is open at a time. It takes
blank lines and lines deeper than its own; any other line ends it.
-/

namespace Haml

/-- The filters there are. -/
inductive FilterKind where
  /-- Statements of code, `:ruby`. -/
  | ruby
  deriving DecidableEq, Repr

namespace FilterKind

def ofName? (name : Text) : Option FilterKind := if name = "ruby".toList then some .ruby else none

/-- What is written before the body. -/
def opening : FilterKind → Text
  | .ruby => "<%".toList

/-- What is written after the body. -/
def closing : FilterKind → Text
  | .ruby => "%>".toList

end FilterKind

/-- An open filter. -/
structure OpenFilter where
  kind : FilterKind
  /-- The indent of the line that opened it. -/
  indent : Nat
  deriving DecidableEq, Repr

/-- The filter that is open, if one is, and how many have been opened so far. -/
structure Filters where
  active : Option OpenFilter
  opened : Nat
  deriving DecidableEq, Repr

namespace Filters

def empty : Filters := ⟨none, 0⟩

def start (filters : Filters) (kind : FilterKind) (indent : Nat) : List Chunk × Filters :=
  ([.indented indent kind.opening], ⟨some ⟨kind, indent⟩, filters.opened + 1⟩)

def finish (filters : Filters) : List Chunk × Filters :=
  match filters.active with
  | none => ([], filters)
  | some filter => ([.indented filter.indent filter.kind.closing], { filters with active := none })

def takes (filters : Filters) (statement : Statement) : Bool :=
  filters.active.any fun filter => statement.isBlank || filter.indent < statement.indent

/-- What the open filter copies of a statement; none if no filter takes it. -/
def absorb? (filters : Filters) (statement : Statement) : Option (List Chunk) :=
  if filters.takes statement then some [.raw statement.text, .raw ['\n']] else none

end Filters

end Haml
