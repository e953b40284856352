/-!
Paths as they are written, with slashes between names.

Repeated slashes count as one. The names `.` and `..` have their meaning only on the way through a
file system.
-/

namespace CommonWord.Path

abbrev Name := List Char

/-- The name of a directory inside itself. -/
def here : Name := ['.']

/-- The name of the directory above a directory inside the latter. -/
def up : Name := ['.', '.']

/-- The text between slashes, which is empty between two that are adjacent. -/
def fields : List Char → List Name
  | [] => [[]]
  | c :: rest =>
    match fields rest with
    | [] => [[c]]
    | first :: others => if c = '/' then [] :: first :: others else (c :: first) :: others

def names (path : List Char) : List Name := (fields path).filter (!·.isEmpty)

/-- Whether a path begins at the root. -/
def isAbsolute (path : List Char) : Bool := path.head? == some '/'

/-- Whether a path ends in a slash, so that it can only lead to a directory. -/
def endsInSlash (path : List Char) : Bool := path.getLast? == some '/'

def ofNames (absolute : Bool) (names : List Name) : List Char :=
  (if absolute then ['/'] else []) ++ ['/'].intercalate names

/-- The path of a file inside a directory. -/
def join (directory : List Char) (name : Name) : List Char :=
  if endsInSlash directory then directory ++ name else directory ++ '/' :: name

/-- The directories on the way to a path, the nearest one first. -/
def ancestors (path : List Char) : List (List Char) :=
  let names := (names path).filter (· != here)
  ((List.range names.length).drop 1).reverse.map fun count =>
    ofNames (isAbsolute path) (names.take count)

end CommonWord.Path
