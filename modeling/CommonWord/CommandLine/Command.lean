import CommonWord.CommandLine.Arguments
import CommonWord.Drawing
import CommonWord.Files.FileSystem
import CommonWord.Files.Path
import CommonWord.Puzzle

/-!
The command that solves the puzzle of a file and draws its automata.

The file is read before anything is written, and the solution is printed only after all drawings
were written.
-/

namespace CommonWord

/-- How a run of the command ended. -/
structure Report where
  /-- The exit code. -/
  code : Nat
  output : String
  errors : String
deriving DecidableEq

namespace Command

def helpText : String :=
  "Find the shortest string matched by every regex of a puzzle\n\n" ++
  "Usage: regex-puzzle [OPTIONS] [FILE]\n\n" ++
  "Arguments:\n" ++
  "  [FILE]  Puzzle file with one regex per line [default: regexes.txt]\n\n" ++
  "Options:\n" ++
  "      --dot <DIR>  Also write Graphviz renderings of every NFA and DFA into this directory\n" ++
  "  -h, --help       Print help\n"

def misuseText : String :=
  "Usage: regex-puzzle [OPTIONS] [FILE]\n\nFor more information, try '--help'.\n"

def failure (path : List Char) (why : String) : Report :=
  ⟨1, "", "error: " ++ String.ofList path ++ ": " ++ why ++ "\n"⟩

def success (word : Option (List Char)) : Report :=
  ⟨0, (match word with | some word => String.ofList word | none => "no common string") ++ "\n", ""⟩

/-- The path of the drawing of one automaton of the expression of this number. -/
def drawingPath (directory : List Char) (number : Nat) (kind : String) : List Char :=
  Path.join directory ("regex-".toList ++ Nat.toDigits 10 number ++ kind.toList)

/-- The drawings of a puzzle, each with its path, in the order in which they are written. -/
def drawings (directory : List Char) (puzzle : Puzzle) : List (List Char × List Char) :=
  ((puzzle.nfas.zip puzzle.dfas).zipIdx 1).flatMap fun ((nfa, dfa), number) =>
    [(drawingPath directory number ".nfa.dot", nfa.drawing.render),
      (drawingPath directory number ".dfa.dot", dfa.drawing.render)]

variable {m : Type → Type} [Monad m] [FileSystem m]

/-- Makes a directory, where it is no failure if there is one already. -/
def ensureDirectory (path : List Char) : m (Except FileError Unit) := do
  match ← FileSystem.createDirectory path with
  | .ok () => pure (.ok ())
  | .error error =>
    if ← FileSystem.isDirectory path then pure (.ok ()) else pure (.error error)

/-- Makes a directory, and before that the ones above as far as they are missing. -/
def ensureDirectories (path : List Char) : List (List Char) → m (Except FileError Unit)
  | [] => ensureDirectory path
  | parent :: above => do
    match ← ensureDirectory path with
    | .ok () => pure (.ok ())
    | .error .notFound =>
      match ← ensureDirectories parent above with
      | .ok () => ensureDirectory path
      | .error error => pure (.error error)
    | .error error => pure (.error error)

/-- Writes files in turn until one cannot be written. -/
def writeFiles : List (List Char × List Char) → m (Except FileError Unit)
  | [] => pure (.ok ())
  | (path, text) :: rest => do
    match ← FileSystem.writeFile path text with
    | .ok () => writeFiles rest
    | .error error => pure (.error error)

def draw (puzzle : Puzzle) (directory : List Char) : m (Except FileError Unit) := do
  match ← ensureDirectories directory (Path.ancestors directory) with
  | .ok () => writeFiles (drawings directory puzzle)
  | .error error => pure (.error error)

/-- Solves a puzzle and draws its automata if a directory is given. -/
def solve (puzzle : Puzzle) : Option (List Char) → m Report
  | none => pure (success puzzle.solution)
  | some directory => do
    match ← draw puzzle directory with
    | .ok () => pure (success puzzle.solution)
    | .error error => pure (failure directory error.message)

def solveFile (file : List Char) (directory : Option (List Char)) : m Report := do
  match ← FileSystem.readFile file with
  | .error error => pure (failure file ("cannot read puzzle: " ++ error.message))
  | .ok source =>
    match Puzzle.load source with
    | .error error => pure (failure file error.message)
    | .ok puzzle => solve puzzle directory

def run (arguments : List (List Char)) : m Report :=
  match Invocation.read arguments with
  | .help => pure ⟨0, helpText, ""⟩
  | .misuse => pure ⟨2, "", misuseText⟩
  | .solve file directory => solveFile file directory

end Command

end CommonWord
