import Haml.Command.Host
import Haml.Path

/-!
# File trees

A model of the files that a run works on: every place in a tree of names holds nothing, a
directory or a file. A place is given by the names that lead to it from the root, and a run works
in one of the directories. Together with a standard input and a record of what was printed and told
it is a host.

Left out are links, through which one file has several places, and names that are not text. So every
path of a tree is text, and no report on it fails to be encoded.
-/

namespace Haml.Command

/-- What a place holds. -/
inductive Node where
  /-- A directory; what is in it has places of its own. -/
  | directory
  | file (content : ByteArray)

def Node.kind : Node → NodeKind
  | .directory => .directory
  | .file _ => .file

/-- A tree of files: its places other than the root, which is a directory. -/
structure FileTree where
  /-- The places that hold something; of two entries for one place the first counts. -/
  entries : List (List Text × Node)
  /-- The place that a path starts from, unless it starts with a slash. -/
  workingDirectory : List Text
  /-- What keeps a file of some content from being written to a place, such as a lack of rights. -/
  refusal? : List Text → ByteArray → Option AccessError

namespace FileTree

/-- The tree that holds nothing but a working directory and refuses nothing. -/
def empty : FileTree := ⟨[(["work".toList], .directory)], ["work".toList], fun _ _ => none⟩

def get? (tree : FileTree) (place : List Text) : Option Node :=
  if place = [] then some .directory else tree.entries.lookup place

def isDirectory (tree : FileTree) (place : List Text) : Bool :=
  match tree.get? place with
  | some .directory => true
  | _ => false

def insert (tree : FileTree) (place : List Text) (node : Node) : FileTree :=
  { tree with entries := (place, node) :: tree.entries.filter (·.1 ≠ place) }

def erase (tree : FileTree) (place : List Text) : FileTree :=
  { tree with entries := tree.entries.filter (·.1 ≠ place) }

/-- An entry below a place, with the names that lead to it from there. -/
def relative? (place : List Text) (entry : List Text × Node) : Option (List Text × Node) :=
  if place.isPrefixOf entry.1 then some (entry.1.drop place.length, entry.2) else none

/-- The entries below a place. -/
def nodesBelow (tree : FileTree) (place : List Text) : List (List Text × Node) :=
  tree.entries.filterMap (relative? place)

/-! ## The working directory -/

/-- What is in the working directory and below it. -/
def nodes (tree : FileTree) : List (List Text × Node) := tree.nodesBelow tree.workingDirectory

/-- The tree with directories along some names from the working directory on. -/
def insertDirectory (tree : FileTree) (names : List Text) : FileTree :=
  (List.range names.length).foldl
    (fun tree n => tree.insert (tree.workingDirectory ++ names.take (n + 1)) .directory) tree

/-- The tree with a file under some names from the working directory on. -/
def insertFile (tree : FileTree) (names : List Text) (content : ByteArray) : FileTree :=
  (tree.insertDirectory names.dropLast).insert (tree.workingDirectory ++ names) (.file content)

/-! ## Paths -/

/--
The place that one piece of a path leads to. Only a directory can be left; two dots lead to the
directory that it is in, and from the root to the root.
-/
def step? (tree : FileTree) (place : List Text) (piece : Text) : Option (List Text) :=
  if !tree.isDirectory place then none
  else if Path.isIdle piece then some place
  else if piece = ['.', '.'] then some place.dropLast
  else if (tree.get? (place ++ [piece])).isSome then some (place ++ [piece])
  else none

/-- The place that the pieces of a path lead to, one after the other. -/
def walk? (tree : FileTree) : List Text → List Text → Option (List Text)
  | place, [] => some place
  | place, piece :: pieces => (tree.step? place piece).bind fun next => tree.walk? next pieces

/-- Where a path starts: at the root if its first character is a slash. -/
def startOf (tree : FileTree) (path : Text) : List Text :=
  if path.head? = some '/' then [] else tree.workingDirectory

/-- The place of a path that leads to something; the empty path does not. -/
def locate? (tree : FileTree) (path : Text) : Option (List Text) :=
  if path = [] then none else tree.walk? (tree.startOf path) (Path.pieces path)

/-- The place for a new file at a path: a name in a directory. -/
def newPlace? (tree : FileTree) (path : Text) : Option (List Text) :=
  match (Path.pieces path).getLast?, tree.walk? (tree.startOf path) (Path.pieces path).dropLast with
  | some name, some place =>
    if tree.isDirectory place && !Path.isIdle name && name != ['.', '.'] then some (place ++ [name])
    else none
  | _, _ => none

def find? (tree : FileTree) (path : Text) : Option Node := (tree.locate? path).bind tree.get?

/-! ## Operations -/

def read (tree : FileTree) (path : Text) : Except AccessError ByteArray :=
  match tree.find? path with
  | none => .error .notFound
  | some .directory => .error .isDirectory
  | some (.file content) => .ok content

/-- Puts a file at a place, unless it is refused. -/
def put (tree : FileTree) (place : List Text) (content : ByteArray) : Except AccessError FileTree :=
  match tree.refusal? place content with
  | none => .ok (tree.insert place (.file content))
  | some error => .error error

def write (tree : FileTree) (path : Text) (content : ByteArray) : Except AccessError FileTree :=
  match tree.locate? path with
  | some place => if tree.isDirectory place then .error .isDirectory else tree.put place content
  | none =>
    match tree.newPlace? path with
    | some place => tree.put place content
    | none => .error .notFound

def remove (tree : FileTree) (path : Text) : Except AccessError FileTree :=
  match tree.locate? path with
  | none => .error .notFound
  | some place => if tree.isDirectory place then .error .isDirectory else .ok (tree.erase place)

/-- The files below the directory at a path, in the order of their names. -/
def filesBelow (tree : FileTree) (path : Text) : List (List Text) :=
  match tree.locate? path with
  | some place =>
    (((tree.nodesBelow place).filter (·.2.kind = .file)).map Prod.fst).mergeSort Path.inOrder
  | none => []

end FileTree

/-- A file tree with a standard input, and all that was printed and told. -/
structure World where
  tree : FileTree
  input : ByteArray
  printed : Text
  told : List Message

namespace World

/-- Does an operation that changes the tree or fails. -/
def change (operation : FileTree → Except AccessError FileTree) :
    StateM World (Except AccessError Unit) := fun world =>
  match operation world.tree with
  | .ok tree => (.ok (), { world with tree })
  | .error error => (.error error, world)

instance : Host (StateM World) where
  kind? path := fun world => ((world.tree.find? path).map Node.kind, world)
  filesBelow path := fun world => (world.tree.filesBelow path, world)
  read path := fun world => (world.tree.read path, world)
  write path content := change fun tree => tree.write path content
  remove path := change fun tree => tree.remove path
  unencodable? _ := fun world => (none, world)
  input := fun world => (world.input, world)
  print text := fun world => ((), { world with printed := world.printed ++ text })
  tell message := fun world => ((), { world with told := world.told ++ [message] })

end World

end Haml.Command
