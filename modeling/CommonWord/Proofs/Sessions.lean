import CommonWord.Proofs.Alignment
import CommonWord.Session

/-!
A session keeps the lists of its puzzle aligned, whatever is asked of it in whatever order.

What a step can do is said once. From that it follows that every step keeps the alignment, so that
every state of a session that begins with no expression has it, and with it the answers to all
questions are right.
-/

namespace CommonWord

def Request.isQuery : Request → Bool
  | .accepts _ | .solve | .inspect => true
  | .add _ | .load _ | .remove _ => false

def Reply.isFailure : Reply → Bool
  | .syntaxError _ | .puzzleError _ | .removed false => true
  | .done | .removed true | .verdicts _ _ | .solution _ | .contents _ => false

namespace Puzzle

/-! ### One step -/

/-- All that a step can do to a puzzle and answer. -/
inductive Handles (puzzle : Puzzle) : Request → Puzzle → Reply → Prop where
  | added {text : List Char} {entry : Entry} (compiled : Entry.compile text = .ok entry) :
      Handles puzzle (.add text) (puzzle.push entry) .done
  | misspelled {text : List Char} {error : Regex.SyntaxError}
      (refused : Regex.parse text = .error error) :
      Handles puzzle (.add text) puzzle (.syntaxError error)
  | loaded {source : List Char} {other : Puzzle} (loaded : load source = .ok other) :
      Handles puzzle (.load source) other .done
  | rejected {source : List Char} {error : PuzzleError} (refused : load source = .error error) :
      Handles puzzle (.load source) puzzle (.puzzleError error)
  | removed {index : Nat} (inside : index < puzzle.size) :
      Handles puzzle (.remove index) (puzzle.erase index) (.removed true)
  | absent {index : Nat} (outside : puzzle.size ≤ index) :
      Handles puzzle (.remove index) puzzle (.removed false)
  | verdicts (word : List Char) :
      Handles puzzle (.accepts word) puzzle
        (.verdicts (puzzle.nfas.map (·.accepts word)) (puzzle.dfas.map (·.accepts word)))
  | solution : Handles puzzle .solve puzzle (.solution (Dfa.commonWord puzzle.dfas))
  | contents : Handles puzzle .inspect puzzle (.contents puzzle)

theorem handle_spec (puzzle : Puzzle) (request : Request) :
    puzzle.Handles request (puzzle.handle request).1 (puzzle.handle request).2 := by
  cases request with
  | add text =>
    rw [handle]
    cases compiled : Entry.compile text with
    | ok entry => exact .added compiled
    | error error => exact .misspelled (Entry.compile_eq_error_iff.mp compiled)
  | load source =>
    rw [handle]
    cases loaded : load source with
    | ok other => exact .loaded loaded
    | error error => exact .rejected loaded
  | remove index =>
    rw [handle]
    split
    · next inside => exact .removed inside
    · next outside => exact .absent (Nat.le_of_not_lt outside)
  | accepts word => exact .verdicts word
  | solve => exact .solution
  | inspect => exact .contents

variable {puzzle next : Puzzle} {request : Request} {reply : Reply}

/-- A step that fails or only asks leaves the puzzle as it was. -/
theorem Handles.unchanged (handles : puzzle.Handles request next reply)
    (idle : request.isQuery = true ∨ reply.isFailure = true) : next = puzzle := by
  cases handles with
  | added | loaded | removed => simp [Request.isQuery, Reply.isFailure] at idle
  | misspelled | rejected | absent | verdicts | solution | contents => rfl

/-! ### What every step keeps -/

theorem aligned_empty : empty.Aligned := by
  have none : Compiles [] := by simp [Compiles]
  exact aligned_ofEntries none

private theorem Aligned.push (aligned : puzzle.Aligned) {text : List Char} {entry : Entry}
    (compiled : Entry.compile text = .ok entry) : (puzzle.push entry).Aligned := by
  obtain ⟨entries, compile, rfl⟩ := aligned.exists_entries
  obtain ⟨regex, -, rfl⟩ := Entry.compile_eq_ok_iff.mp compiled
  rw [← ofEntries_concat]
  apply aligned_ofEntries
  exact List.forall_mem_append.mpr ⟨compile, List.forall_mem_singleton.mpr compiled⟩

private theorem Aligned.erase (aligned : puzzle.Aligned) (index : Nat) :
    (puzzle.erase index).Aligned := by
  obtain ⟨entries, compile, rfl⟩ := aligned.exists_entries
  have same : (ofEntries entries).erase index = ofEntries (entries.eraseIdx index) := by
    simp [Puzzle.erase, ofEntries, List.eraseIdx_map]
  rw [same]
  apply aligned_ofEntries
  intro entry member
  exact compile entry (List.mem_of_mem_eraseIdx member)

theorem Handles.aligned (handles : puzzle.Handles request next reply) (aligned : puzzle.Aligned) :
    next.Aligned := by
  cases handles with
  | added compiled => exact aligned.push compiled
  | loaded loaded => exact (load_ok loaded).2.2
  | removed => exact aligned.erase _
  | misspelled | rejected | absent | verdicts | solution | contents => exact aligned

/-! ### Sessions -/

def after (puzzle : Puzzle) (requests : List Request) : Puzzle :=
  requests.foldl (fun state request => (state.handle request).1) puzzle

private theorem session_concat (puzzle : Puzzle) (requests : List Request) (request : Request) :
    puzzle.session (requests ++ [request]) =
      puzzle.session requests ++ [(puzzle.after requests).handle request] := by
  induction requests generalizing puzzle with
  | nil => rfl
  | cons first rest ih => exact congrArg (puzzle.handle first :: ·) (ih _)

private theorem Aligned.after (aligned : puzzle.Aligned) (requests : List Request) :
    (puzzle.after requests).Aligned := by
  induction requests generalizing puzzle with
  | nil => exact aligned
  | cons request rest ih => exact ih ((puzzle.handle_spec request).aligned aligned)

/-! ### Answers -/

private theorem Aligned.accepts_eq (aligned : puzzle.Aligned) (word : List Char) :
    puzzle.nfas.map (·.accepts word) = puzzle.dfas.map (·.accepts word) := by
  obtain ⟨entries, compile, rfl⟩ := aligned.exists_entries
  simp only [ofEntries, List.map_map]
  apply List.map_congr_left
  intro entry member
  obtain ⟨-, nfa, dfa⟩ := compile.stages member
  show entry.nfa.accepts word = entry.dfa.accepts word
  rw [nfa, dfa]
  exact (Dfa.simulates_ofNfa (Nfa.wellFormed_ofRegex entry.regex) word).accepts_eq.symm

theorem Aligned.wellFormed (aligned : puzzle.Aligned) :
    ∀ dfa, dfa ∈ puzzle.dfas → dfa.WellFormed := by
  obtain ⟨entries, compile, rfl⟩ := aligned.exists_entries
  intro _ member
  obtain ⟨entry, known, rfl⟩ := List.mem_map.mp member
  rw [(compile.stages known).2.2]
  exact Dfa.wellFormed_ofNfa (Nfa.wellFormed_ofRegex entry.regex)

/-- In every state of a session that begins with no expression, the lists are aligned. The next step
    does what is asked, and leaves the state as it was if it fails or only asks. The verdicts of the
    automata of both kinds agree on every word, and the solution is the least word that all
    automata accept, if there is any. -/
theorem session_invariant (requests : List Request) :
    let puzzle := empty.after requests
    (∀ request, empty.session (requests ++ [request]) =
      empty.session requests ++ [puzzle.handle request]) ∧
    puzzle.Aligned ∧
    (∀ request, puzzle.Handles request (puzzle.handle request).1 (puzzle.handle request).2) ∧
    (∀ request, request.isQuery = true ∨ (puzzle.handle request).2.isFailure = true →
      (puzzle.handle request).1 = puzzle) ∧
    (∀ word, ∃ verdicts, (puzzle.handle (.accepts word)).2 = .verdicts verdicts verdicts ∧
      verdicts = puzzle.nfas.map (·.accepts word)) ∧
    ∃ answer, (puzzle.handle .solve).2 = .solution answer ∧
      (∀ word, answer = some word ↔ Word.IsLeast (Dfa.Common puzzle.dfas) word) ∧
      (answer = none ↔ ¬ ∃ word, Dfa.Common puzzle.dfas word) := by
  intro puzzle
  have aligned : puzzle.Aligned := aligned_empty.after requests
  refine ⟨session_concat empty requests, aligned, puzzle.handle_spec, ?_, ?_, ?_⟩
  · intro request
    exact (puzzle.handle_spec request).unchanged
  · intro word
    refine ⟨puzzle.nfas.map (·.accepts word), ?_, rfl⟩
    show Reply.verdicts _ _ = _
    rw [aligned.accepts_eq]
  · refine ⟨puzzle.solution, rfl, Dfa.commonWord_eq_some_iff aligned.wellFormed, ?_⟩
    rw [not_exists]
    exact Dfa.commonWord_eq_none_iff aligned.wellFormed

end Puzzle

end CommonWord
