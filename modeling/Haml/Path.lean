import Haml.Text.Basic

/-!
# Paths

A path is a row of pieces between slashes. Empty pieces and single dots at its end do not count. A
file name may have an extension after its last dot, unless that dot is its first character.
-/

namespace Haml.Path

/-- The pieces between slashes; there is always one. -/
def pieces : Text → List Text
  | [] => [[]]
  | c :: cs => if c = '/' then [] :: pieces cs else Text.consHead c (pieces cs)

/-- A piece that names no step. -/
def isIdle (piece : Text) : Bool := piece = [] || piece = ['.']

/-- The pieces up to the last one that names a step. -/
def namedPieces (path : Text) : List Text := ((pieces path).reverse.dropWhile isIdle).reverse

/-- The last piece that names a step, if it is a name; two dots are not. -/
def fileName? (path : Text) : Option Text :=
  (namedPieces path).getLast?.filter (· != ['.', '.'])

/-- The parts of a file name before and after its last dot, if something stands before the dot. -/
def splitExtension? (name : Text) : Option (Text × Text) :=
  match name.reverse.dropWhile (· ≠ '.') with
  | _ :: c :: before =>
    some ((c :: before).reverse, (name.reverse.takeWhile (· ≠ '.')).reverse)
  | _ => none

/-- The extension of a path's file name. -/
def extension? (path : Text) : Option Text :=
  (fileName? path).bind fun name => (splitExtension? name).map Prod.snd

/--
The path with another extension for its file name. What follows the file name is dropped, and a path
without a file name stays. If only two dots are left once an extension at the end of the path is
taken off, they name no file and get no extension.
-/
def withExtension (extension path : Text) : Text :=
  let named := namedPieces path
  let replaceName (name : Text) := Text.join ['/'] (named.dropLast ++ [name])
  match fileName? path with
  | none => path
  | some name =>
    match splitExtension? name with
    | none => replaceName (name ++ '.' :: extension)
    | some (stem, _) =>
      if stem = ['.'] && Text.join ['/'] named = path then replaceName ['.', '.']
      else replaceName (stem ++ '.' :: extension)

def isTemplate (path : Text) : Bool := extension? path = some "haml".toList

/-- Where the page of a template goes. -/
def outputPath (path : Text) : Text := withExtension "erb".toList path

/-- The path of something below a directory. -/
def below (directory : Text) (relative : List Text) : Text :=
  let rest := Text.join ['/'] relative
  if directory.getLast? = some '/' then directory ++ rest else directory ++ '/' :: rest

/-! ## Order -/

/-- Whether a name comes before another: characters are compared by code point. -/
def nameBefore (a b : Text) : Bool := List.lex a b fun c d => decide (c.toNat < d.toNat)

/-- Whether a row of names comes before another or is equal to it: names are compared in turn. -/
def inOrder (a b : List Text) : Bool := !List.lex b a nameBefore

end Haml.Path
