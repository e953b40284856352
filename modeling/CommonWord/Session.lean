import CommonWord.Puzzle

/-!
Sessions, in which a puzzle is put together, changed and asked about step by step.

A step that fails leaves the puzzle as it was.
-/

namespace CommonWord

inductive Request where
  /-- To add the expression of a text, which is not trimmed. -/
  | add (text : List Char)
  /-- To replace the puzzle by that of a text. -/
  | load (source : List Char)
  /-- To remove the expression of this number, counted from zero. -/
  | remove (index : Nat)
  /-- To ask every automaton about a word. -/
  | accepts (word : List Char)
  /-- To ask for the solution. -/
  | solve
  /-- To ask for the puzzle. -/
  | inspect

inductive Reply where
  | done
  | syntaxError (error : Regex.SyntaxError)
  | puzzleError (error : PuzzleError)
  /-- Whether there was an expression to remove. -/
  | removed (present : Bool)
  /-- The verdicts on a word, in the order of the expressions. -/
  | verdicts (nfas dfas : List Bool)
  | solution (word : Option (List Char))
  | contents (puzzle : Puzzle)
deriving DecidableEq

namespace Puzzle

/-- The puzzle after a step, and the answer. -/
def handle (puzzle : Puzzle) : Request → Puzzle × Reply
  | .add text =>
    match Entry.compile text with
    | .ok entry => (puzzle.push entry, .done)
    | .error error => (puzzle, .syntaxError error)
  | .load source =>
    match load source with
    | .ok loaded => (loaded, .done)
    | .error error => (puzzle, .puzzleError error)
  | .remove index =>
    if index < puzzle.size then (puzzle.erase index, .removed true) else (puzzle, .removed false)
  | .accepts word =>
    (puzzle, .verdicts (puzzle.nfas.map (·.accepts word)) (puzzle.dfas.map (·.accepts word)))
  | .solve => (puzzle, .solution puzzle.solution)
  | .inspect => (puzzle, .contents puzzle)

/-- The puzzle after each step of a session, with the answers. -/
def session (puzzle : Puzzle) : List Request → List (Puzzle × Reply)
  | [] => []
  | request :: rest =>
    let (next, reply) := puzzle.handle request
    (next, reply) :: next.session rest

end Puzzle

end CommonWord
