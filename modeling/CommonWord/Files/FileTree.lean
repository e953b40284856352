import CommonWord.Files.FileSystem
import CommonWord.Files.Path
import CommonWord.Text.Utf8

/-!
A tree of files and directories, and the file system that it is.

Every step of a path has to start from a directory, and a path that ends in a slash takes one more
step, to the directory itself.
-/

namespace CommonWord

/-- A place in a tree, given by the names that lead to it from the root, the last one first. -/
abbrev Place := List Path.Name

/-- What stands at a place. -/
inductive Node where
  | directory
  | file (content : List UInt8)
deriving DecidableEq

/-- A tree of files and directories, of which the root is always a directory. -/
structure FileTree where
  /-- What stands at the places other than the root. -/
  nodes : List (Place × Node)
  /-- The directory at which relative paths begin. -/
  working : Place

namespace FileTree

def node? (tree : FileTree) (place : Place) : Option Node :=
  if place.isEmpty then some .directory else tree.nodes.lookup place

/-- The tree with another node at a place. -/
def put (tree : FileTree) (place : Place) (node : Node) : FileTree :=
  { tree with nodes := (place, node) :: tree.nodes.filter fun entry => entry.1 != place }

/-- The place that a name leads to from a directory. -/
def enter (tree : FileTree) (place : Place) (name : Path.Name) : Except FileError Place :=
  match tree.node? place with
  | none => .error .notFound
  | some (.file _) => .error .notDirectory
  | some .directory =>
    .ok (if name = Path.here then place else if name = Path.up then place.tail else name :: place)

/-- The place that names lead to from where a path begins. -/
def follow (tree : FileTree) (path : List Char) (names : List Path.Name) :
    Except FileError Place :=
  if path.isEmpty then .error .notFound
  else names.foldlM tree.enter (if Path.isAbsolute path then [] else tree.working)

/-- The place that a path leads to, at which nothing needs to stand. -/
def resolve (tree : FileTree) (path : List Char) : Except FileError Place :=
  tree.follow path
    (Path.names path ++ if Path.endsInSlash path then [Path.here] else [])

def readFile (tree : FileTree) (path : List Char) : Except FileError (List Char) :=
  match tree.resolve path with
  | .error error => .error error
  | .ok place =>
    match tree.node? place with
    | none => .error .notFound
    | some .directory => .error .isDirectory
    | some (.file content) =>
      match Text.decode? content with
      | none => .error .notText
      | some text => .ok text

def isDirectory (tree : FileTree) (path : List Char) : Bool :=
  match tree.resolve path with
  | .error _ => false
  | .ok place => tree.node? place == some .directory

/-- The tree with a directory at a path, at which nothing stood before. -/
def createDirectory (tree : FileTree) (path : List Char) : Except FileError FileTree :=
  match tree.follow path (Path.names path) with
  | .error error => .error error
  | .ok place =>
    match tree.node? place with
    | some _ => .error .alreadyExists
    | none => .ok (tree.put place .directory)

/-- The tree with a file of this text at a path, at which no directory stood before. -/
def writeFile (tree : FileTree) (path text : List Char) : Except FileError FileTree :=
  match tree.resolve path with
  | .error error => .error error
  | .ok place =>
    if tree.node? place = some .directory then .error .isDirectory
    else .ok (tree.put place (.file (Text.encode text)))

/-- Carries out a change, or leaves the tree as it is where the change fails. -/
def change (update : FileTree → Except FileError FileTree) :
    StateM FileTree (Except FileError Unit) := fun tree =>
  match update tree with
  | .error error => (.error error, tree)
  | .ok changed => (.ok (), changed)

instance : FileSystem (StateM FileTree) where
  readFile path := fun tree => (tree.readFile path, tree)
  isDirectory path := fun tree => (tree.isDirectory path, tree)
  createDirectory path := change (·.createDirectory path)
  writeFile path text := change (·.writeFile path text)

/-- The tree of only a working directory, which lies right below the root. -/
def empty : FileTree := ⟨[([['w']], .directory)], [['w']]⟩

/-- The tree with a file at these names below a place, and the directories on the way. -/
def plant (tree : FileTree) (place : Place) (content : List UInt8) : List Path.Name → FileTree
  | [] => tree
  | [name] => tree.put (name :: place) (.file content)
  | name :: rest => (tree.put (name :: place) .directory).plant (name :: place) content rest

/-- The tree of these files in the working directory. -/
def ofFiles (files : List (List Char × List UInt8)) : FileTree :=
  files.foldl (fun tree (path, content) => tree.plant tree.working content (Path.names path)) empty

/-- The path of a place from the working directory, if it lies below. -/
def relative? (tree : FileTree) (place : Place) : Option (List Char) :=
  let depth := place.length - tree.working.length
  if place.drop depth = tree.working then
    some (Path.ofNames false (place.take depth).reverse)
  else none

/-- The files below the working directory, each with its path from there. -/
def files (tree : FileTree) : List (List Char × List UInt8) :=
  tree.nodes.filterMap fun (place, node) =>
    match node with
    | .directory => none
    | .file content => (tree.relative? place).map (·, content)

/-- The files of a tree that another one does not hold with the same content. -/
def filesSince (tree before : FileTree) : List (List Char × List UInt8) :=
  tree.files.filter fun file => !before.files.contains file

end FileTree

end CommonWord
