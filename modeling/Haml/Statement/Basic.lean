import Haml.Line
import Haml.Statement.Kind

/-!
# Statements

A statement is a line, or several lines folded into one.
-/

namespace Haml

/-- One statement of a template. -/
structure Statement where
  /-- The text, with the indentation of the first line. -/
  text : Text
  span : Nat
  terminated : Bool
  deriving DecidableEq, Repr

namespace Statement

/-- The statement that a line is by itself. -/
def single (line : Line) : Statement := ⟨line.text, 1, line.terminated⟩

/-- The statement folded from `span` lines. -/
def folded (text : Text) (span : Nat) : Statement := ⟨text, span, true⟩

def stripped (statement : Statement) : Text := Text.trim statement.text

/-- The indentation, exactly as written. -/
def indentation (statement : Statement) : Text := Text.indentation statement.text

def indent (statement : Statement) : Nat := Text.indent statement.text

def isBlank (statement : Statement) : Bool := statement.stripped.isEmpty

def kind (statement : Statement) : Kind := Kind.of statement.stripped

/-- The indent of the first of some statements that is not blank; without one it is zero. -/
def indentOfFirst (statements : List Statement) : Nat :=
  match statements.find? (!·.isBlank) with
  | some statement => statement.indent
  | none => 0

end Statement

end Haml
