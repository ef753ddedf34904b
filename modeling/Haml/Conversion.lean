import Haml.Rendering
import Haml.Scope
import Haml.Statement.Fold

/-!
# Converting documents

The statements of a document are converted one after the other. Nesting is told from indents
alone: a statement has children if the next statement that is not blank is deeper. Conversion
never fails.
-/

namespace Haml

/-- What has been counted in one conversion. -/
structure Stats where
  lines : Nat
  /-- The statements after folding. -/
  statements : Nat
  framesOpened : Nat
  framesClosed : Nat
  filtersOpened : Nat
  /-- The statements kept as they were because their kind could not read them. -/
  verbatim : Nat
  deriving DecidableEq, Repr

/-- The standing between two statements. -/
structure Converter where
  scopes : Scopes
  filters : Filters
  verbatim : Nat
  deriving DecidableEq, Repr

namespace Converter

def start : Converter := ⟨.empty, .empty, 0⟩

/-- Writes a rendered statement, and opens the scope or the filter that it asks for. -/
def write (converter : Converter) (statement : Statement) (hasChildren : Bool) :
    Rendering → List Chunk × Converter
  | .line body closer =>
    ([.line statement.indentation body],
      match closer with
      | some closer =>
        if hasChildren then
          { converter with scopes := converter.scopes.push ⟨statement.indent, closer⟩ }
        else converter
      | none => converter)
  | .filter kind =>
    let (chunks, filters) := converter.filters.start kind statement.indent
    (chunks, { converter with filters })
  | .verbatim =>
    ([.line statement.indentation statement.stripped],
      { converter with verbatim := converter.verbatim + 1 })

/-- What a blank statement is copied to. -/
def copyBlank (statement : Statement) : List Chunk :=
  .raw statement.text :: if statement.terminated then [.raw ['\n']] else []

/--
Converts a statement outside of filters: a blank one is copied, and any other one ends scopes, is
rendered, and may open a scope or a filter. `nextIndent` is the indent of what follows.
-/
def convert (converter : Converter) (statement : Statement) (nextIndent : Nat) :
    List Chunk × Converter :=
  if statement.isBlank then (copyBlank statement, converter)
  else
    let (closers, scopes) :=
      converter.scopes.closeFor statement.indent (Code.isContinuation statement.stripped)
    let hasChildren : Bool := statement.indent < nextIndent
    let (chunks, converter) :=
      { converter with scopes }.write statement hasChildren (statement.render hasChildren)
    (closers ++ chunks, converter)

/-- Converts one statement. One that the open filter does not take closes the filter first. -/
def step (converter : Converter) (statement : Statement) (nextIndent : Nat) :
    List Chunk × Converter :=
  match converter.filters.absorb? statement with
  | some copied => (copied, converter)
  | none =>
    let (last, filters) := converter.filters.finish
    let (chunks, converter) := { converter with filters }.convert statement nextIndent
    (last ++ chunks, converter)

/-- Closes what is open at the end of the document. -/
def finish (converter : Converter) : List Chunk × Converter :=
  let (last, filters) := converter.filters.finish
  let (closers, scopes) := converter.scopes.finish
  (last ++ closers, { converter with filters, scopes })

/-- Converts the statements that are left. -/
def run (converter : Converter) : List Statement → List Chunk × Converter
  | [] => converter.finish
  | statement :: following =>
    let (chunks, converter) := converter.step statement (Statement.indentOfFirst following)
    let (more, converter) := converter.run following
    (chunks ++ more, converter)

end Converter

/-- A converted document. -/
structure Conversion where
  page : Text
  stats : Stats
  deriving DecidableEq, Repr

def convert (document : Text) : Conversion :=
  let statements := Statement.ofDocument document
  let (chunks, converter) := Converter.start.run statements
  { page := Chunk.concat chunks
    stats :=
      { lines := (Line.ofDocument document).length
        statements := statements.length
        framesOpened := converter.scopes.opened
        framesClosed := converter.scopes.closed
        filtersOpened := converter.filters.opened
        verbatim := converter.verbatim } }

end Haml
