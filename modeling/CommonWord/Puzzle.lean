import CommonWord.Dfa.Product
import CommonWord.Dfa.Subset
import CommonWord.Nfa.Thompson
import CommonWord.Regex.Parser
import CommonWord.Text.Blank
import CommonWord.Text.Lines

/-!
Puzzles: regular expressions, one to a line, for which a common word is sought.

Blanks around an expression and blank lines do not matter, except that blank lines are counted. The
first line that is no expression makes the whole text no puzzle.
-/

namespace CommonWord

/-- A regular expression with all that was made from it. -/
structure Entry where
  source : List Char
  regex : Regex
  nfa : Nfa
  dfa : Dfa
deriving DecidableEq

def Entry.compile (text : List Char) : Except Regex.SyntaxError Entry :=
  match Regex.parse text with
  | .error error => .error error
  | .ok regex =>
    let nfa := Nfa.ofRegex regex
    .ok ⟨text, regex, nfa, Dfa.ofNfa nfa⟩

/-- A line that is no regular expression. -/
structure PuzzleError where
  /-- The number of the line, counted from one. -/
  line : Nat
  cause : Regex.SyntaxError
deriving DecidableEq

/-- The message that names the line. -/
def PuzzleError.message (error : PuzzleError) : String :=
  "line " ++ toString error.line ++ ": " ++ error.cause.message

/-- Expressions that a word has to satisfy all at once, with all that was made from them. What
    belongs to one expression stands at one place of all four lists. -/
structure Puzzle where
  sources : List (List Char)
  regexes : List Regex
  nfas : List Nfa
  /-- The automata that the search goes over, side by side. -/
  dfas : List Dfa
deriving DecidableEq

namespace Puzzle

def empty : Puzzle := ⟨[], [], [], []⟩

def size (puzzle : Puzzle) : Nat := puzzle.dfas.length

/-- The puzzle with one more expression at its end. -/
def push (puzzle : Puzzle) (entry : Entry) : Puzzle where
  sources := puzzle.sources ++ [entry.source]
  regexes := puzzle.regexes ++ [entry.regex]
  nfas := puzzle.nfas ++ [entry.nfa]
  dfas := puzzle.dfas ++ [entry.dfa]

/-- The puzzle without the expression of this number, counted from zero. -/
def erase (puzzle : Puzzle) (index : Nat) : Puzzle where
  sources := puzzle.sources.eraseIdx index
  regexes := puzzle.regexes.eraseIdx index
  nfas := puzzle.nfas.eraseIdx index
  dfas := puzzle.dfas.eraseIdx index

/-- The puzzle of several expressions in turn, which is laid out list by list. -/
def ofEntries (entries : List Entry) : Puzzle where
  sources := entries.map (·.source)
  regexes := entries.map (·.regex)
  nfas := entries.map (·.nfa)
  dfas := entries.map (·.dfa)

/-- Laying out a puzzle comes to the same as pushing one expression after the other. -/
theorem ofEntries_concat (entries : List Entry) (entry : Entry) :
    ofEntries (entries ++ [entry]) = (ofEntries entries).push entry := by
  simp [ofEntries, push]

/-- The lines of a text that are not blank, trimmed, each with its number. -/
def numberedLines (source : List Char) : List (Nat × List Char) :=
  ((Text.lines source).zipIdx 1).filterMap fun (line, number) =>
    let text := Text.trim line
    if text.isEmpty then none else some (number, text)

/-- What comes of the lines of a text: the entries up to the first line that is rejected, and that
    line. -/
structure Reading where
  compiled : List (Nat × Entry)
  rejected : Option PuzzleError
deriving DecidableEq

/-- Compiles lines until one is rejected. -/
def compileLines : List (Nat × List Char) → Reading
  | [] => ⟨[], none⟩
  | (line, text) :: rest =>
    match Entry.compile text with
    | .error cause => ⟨[], some ⟨line, cause⟩⟩
    | .ok entry =>
      let ⟨compiled, rejected⟩ := compileLines rest
      ⟨(line, entry) :: compiled, rejected⟩

def read (source : List Char) : Reading := compileLines (numberedLines source)

/-- The puzzle of a text, if no line is rejected. -/
def load (source : List Char) : Except PuzzleError Puzzle :=
  let ⟨compiled, rejected⟩ := read source
  match rejected with
  | some error => .error error
  | none => .ok (ofEntries (compiled.map (·.2)))

/-- The least word that satisfies every expression. -/
def solution (puzzle : Puzzle) : Option (List Char) := Dfa.commonWord puzzle.dfas

def solve (source : List Char) : Except PuzzleError (Option (List Char)) :=
  match load source with
  | .error error => .error error
  | .ok puzzle => .ok puzzle.solution

/-- The solution of the puzzle of a text, or the message that says why there is no puzzle. -/
def solveOrMessage (source : List Char) : Except String (Option (List Char)) :=
  match solve source with
  | .error error => .error error.message
  | .ok word => .ok word

end Puzzle

end CommonWord
