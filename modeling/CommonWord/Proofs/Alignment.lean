import CommonWord.Proofs.Puzzles
import CommonWord.Proofs.Rows

/-!
The lists of a puzzle are aligned, and a text either gives all of its rows to them or is refused at
the first row that is no expression.

What stands at one place of the lists was made, stage by stage, from the source that stands there.
So a puzzle is known by its sources, and those of a text are its rows without the empty ones.
-/

namespace CommonWord.Puzzle

/-! ### Alignment -/

/-- The lists of a puzzle are of one length, and at every place stand the expression of the source
    and the automata that are built for it. -/
structure Aligned (puzzle : Puzzle) : Prop where
  regexes_length : puzzle.regexes.length = puzzle.sources.length
  nfas_length : puzzle.nfas.length = puzzle.sources.length
  dfas_length : puzzle.dfas.length = puzzle.sources.length
  stages : ∀ (index : Nat) (text : List Char), puzzle.sources[index]? = some text →
    ∃ regex, Regex.parse text = .ok regex ∧ puzzle.regexes[index]? = some regex ∧
      puzzle.nfas[index]? = some (Nfa.ofRegex regex) ∧
      puzzle.dfas[index]? = some (Dfa.ofNfa (Nfa.ofRegex regex))

/-- Every entry is what its own source is compiled to. -/
def Compiles (entries : List Entry) : Prop :=
  ∀ entry, entry ∈ entries → Entry.compile entry.source = .ok entry

theorem Compiles.stages {entries : List Entry} (compile : Compiles entries) {entry : Entry}
    (member : entry ∈ entries) : Regex.parse entry.source = .ok entry.regex ∧
      entry.nfa = Nfa.ofRegex entry.regex ∧ entry.dfa = Dfa.ofNfa (Nfa.ofRegex entry.regex) := by
  obtain ⟨regex, parsed, same⟩ := Entry.compile_eq_ok_iff.mp (compile entry member)
  obtain ⟨source, other, nfa, dfa⟩ := entry
  obtain ⟨-, rfl, rfl, rfl⟩ := Entry.mk.inj same
  exact ⟨parsed, rfl, rfl⟩

theorem aligned_ofEntries {entries : List Entry} (compile : Compiles entries) :
    (ofEntries entries).Aligned := by
  refine ⟨by simp [ofEntries], by simp [ofEntries], by simp [ofEntries], ?_⟩
  intro index text known
  simp only [ofEntries, List.getElem?_map, Option.map_eq_some_iff] at known ⊢
  obtain ⟨entry, place, rfl⟩ := known
  obtain ⟨parsed, nfa, dfa⟩ := compile.stages (List.mem_of_getElem? place)
  exact ⟨entry.regex, parsed, ⟨entry, place, rfl⟩, ⟨entry, place, nfa⟩, ⟨entry, place, dfa⟩⟩

theorem Aligned.exists_entries {puzzle : Puzzle} (aligned : puzzle.Aligned) :
    ∃ entries, Compiles entries ∧ puzzle = ofEntries entries := by
  obtain ⟨sources, regexes, nfas, dfas⟩ := puzzle
  induction sources generalizing regexes nfas dfas with
  | nil =>
    obtain rfl := List.length_eq_zero_iff.mp aligned.regexes_length
    obtain rfl := List.length_eq_zero_iff.mp aligned.nfas_length
    obtain rfl := List.length_eq_zero_iff.mp aligned.dfas_length
    exact ⟨[], by simp [Compiles], rfl⟩
  | cons text texts ih =>
    obtain ⟨regex, parsed, first, firstNfa, firstDfa⟩ := aligned.stages 0 text rfl
    obtain ⟨regexes, rfl⟩ := List.head?_eq_some_iff.mp (List.head?_eq_getElem?.trans first)
    obtain ⟨nfas, rfl⟩ := List.head?_eq_some_iff.mp (List.head?_eq_getElem?.trans firstNfa)
    obtain ⟨dfas, rfl⟩ := List.head?_eq_some_iff.mp (List.head?_eq_getElem?.trans firstDfa)
    have rest : Aligned ⟨texts, regexes, nfas, dfas⟩ :=
      ⟨Nat.succ.inj aligned.regexes_length, Nat.succ.inj aligned.nfas_length,
        Nat.succ.inj aligned.dfas_length, fun index => aligned.stages (index + 1)⟩
    obtain ⟨entries, compile, same⟩ := ih regexes nfas dfas rest
    refine ⟨⟨text, regex, Nfa.ofRegex regex, Dfa.ofNfa (Nfa.ofRegex regex)⟩ :: entries, ?_, ?_⟩
    · exact List.forall_mem_cons.mpr
        ⟨Entry.compile_eq_ok_iff.mpr ⟨regex, parsed, rfl⟩, compile⟩
    · simpa [ofEntries] using same

private theorem Compiles.map_ok {entries : List Entry} (compile : Compiles entries) :
    (entries.map (·.source)).map Entry.compile = entries.map Except.ok := by
  rw [List.map_map]
  exact List.map_congr_left compile

/-- An aligned puzzle is known by its sources. -/
theorem Aligned.ext {puzzle other : Puzzle} (aligned : puzzle.Aligned) (also : other.Aligned)
    (same : puzzle.sources = other.sources) : puzzle = other := by
  obtain ⟨entries, compile, rfl⟩ := aligned.exists_entries
  obtain ⟨others, alsoCompile, rfl⟩ := also.exists_entries
  have sources : entries.map (·.source) = others.map (·.source) := same
  have equal := compile.map_ok
  rw [sources, alsoCompile.map_ok] at equal
  rw [List.map_injective_iff.mpr (fun _ _ => Except.ok.inj) equal]

/-! ### The rows of a text -/

/-- A text is an expression. -/
def Accepted (text : List Char) : Prop := ∃ regex, Regex.parse text = .ok regex

theorem texts_eq (source : List Char) :
    texts source = (Text.rows source).filter fun row => !row.isEmpty := by
  obtain ⟨rest, few, same⟩ := Text.rows_eq source
  rw [same, List.filter_append, texts]
  rcases few with rfl | rfl <;> simp

theorem numberedLines_eq (source : List Char) :
    numberedLines source = ((Text.rows source).zipIdx 1).filterMap fun (row, number) =>
      if row.isEmpty then none else some (number, row) := by
  obtain ⟨rest, few, same⟩ := Text.rows_eq source
  have empty : (rest.zipIdx (1 + ((Text.lines source).map Text.trim).length)).filterMap
      (fun (row, number) => if row.isEmpty then none else some (number, row)) = [] := by
    rcases few with rfl | rfl <;> rfl
  rw [same, List.zipIdx_append, List.filterMap_append, empty, List.append_nil, List.zipIdx_map,
    List.filterMap_map]
  rfl

/-- The numbers of the lines that are not blank are the places of their rows. -/
private theorem numberedLines_split {source text : List Char}
    {before after : List (Nat × List Char)}
    {number : Nat} (lines : numberedLines source = before ++ (number, text) :: after) :
    ∃ front back, Text.rows source = front ++ text :: back ∧ number = front.length + 1 ∧
      text ≠ [] ∧ ∀ row, row ∈ front → row = [] ∨ row ∈ before.map (·.2) := by
  rw [numberedLines_eq] at lines
  obtain ⟨early, late, apart, earlier, later⟩ := List.filterMap_eq_append_iff.mp lines
  obtain ⟨skipped, ⟨row, place⟩, rest, rfl, blank, found, -⟩ := List.filterMap_eq_cons_iff.mp later
  rw [← List.append_assoc] at apart
  obtain ⟨front, others, split, before, next⟩ := List.zipIdx_eq_append_iff.mp apart
  obtain ⟨_, back, rfl, same, -⟩ := List.zipIdx_eq_cons_iff.mp next.symm
  obtain ⟨rfl, rfl⟩ := Prod.mk.inj same
  obtain ⟨plain, rfl, rfl⟩ : ¬ row.isEmpty = true ∧ 1 + front.length = number ∧ row = text := by
    simpa using found
  refine ⟨front, back, split, Nat.add_comm _ _, by simpa using plain, ?_⟩
  intro _ member
  rw [← List.zipIdx_map_fst 1 front, ← before] at member
  obtain ⟨⟨other, index⟩, known, rfl⟩ := List.mem_map.mp member
  rcases List.mem_append.mp known with inEarly | inSkipped
  · by_cases empty : other = []
    · exact .inl empty
    · right
      rw [← earlier]
      refine List.mem_map.mpr ⟨(index, other), List.mem_filterMap.mpr ⟨_, inEarly, ?_⟩, rfl⟩
      exact if_neg (by simpa using empty)
  · left
    simpa using blank _ inSkipped

/-! ### Loading -/

/-- A text is refused at a row: the row is no expression, and those before it are empty or are
    expressions. Rows are counted from one, and the empty ones count. -/
def RefusedAt (rows : List (List Char)) (error : PuzzleError) : Prop :=
  ∃ index text, rows[index]? = some text ∧ error.line = index + 1 ∧ text ≠ [] ∧
    Regex.parse text = .error error.cause ∧
    ∀ earlier row, earlier < index → rows[earlier]? = some row → row = [] ∨ Accepted row

private theorem not_accepted_of_error {text : List Char} {cause : Regex.SyntaxError}
    (rejected : Regex.parse text = .error cause) : ¬ Accepted text := by
  rintro ⟨regex, parsed⟩
  rw [rejected] at parsed
  contradiction

private theorem RefusedAt.not_accepted {rows : List (List Char)} {error : PuzzleError}
    (refused : RefusedAt rows error) : ¬ ∀ row, row ∈ rows → row ≠ [] → Accepted row := by
  obtain ⟨index, text, place, -, filled, rejected, -⟩ := refused
  intro all
  exact not_accepted_of_error rejected (all text (List.mem_of_getElem? place) filled)

/-- A text is refused with one error only, on which nothing that comes after its row has a say. -/
theorem RefusedAt.unique {rows : List (List Char)} {error other : PuzzleError}
    (refused : RefusedAt rows error) (also : RefusedAt rows other) : error = other := by
  obtain ⟨line, cause⟩ := error
  obtain ⟨otherLine, otherCause⟩ := other
  obtain ⟨i, text, place, rfl, filled, rejected, earlier⟩ := refused
  obtain ⟨j, next, alsoPlace, rfl, alsoFilled, alsoRejected, alsoEarlier⟩ := also
  rcases Nat.lt_trichotomy i j with before | rfl | behind
  · rcases alsoEarlier i text before place with empty | accepted
    · exact absurd empty filled
    · exact absurd accepted (not_accepted_of_error rejected)
  · obtain rfl := Option.some.inj (place.symm.trans alsoPlace)
    obtain rfl : cause = otherCause := Except.error.inj (rejected.symm.trans alsoRejected)
    rfl
  · rcases earlier j next behind alsoPlace with empty | accepted
    · exact absurd empty alsoFilled
    · exact absurd accepted (not_accepted_of_error alsoRejected)

theorem compiles_of_forall₂ {texts : List (List Char)} {entries : List Entry}
    (compiled : List.Forall₂ (fun text entry => Entry.compile text = .ok entry) texts entries) :
    Compiles entries ∧ (ofEntries entries).sources = texts ∧
      ∀ text, text ∈ texts → Accepted text := by
  induction compiled with
  | nil => exact ⟨by simp [Compiles], rfl, by simp⟩
  | @cons text entry texts entries first _ ih =>
    obtain ⟨rest, sources, accepted⟩ := ih
    obtain ⟨regex, parsed, rfl⟩ := Entry.compile_eq_ok_iff.mp first
    refine ⟨List.forall_mem_cons.mpr ⟨first, rest⟩, ?_,
      List.forall_mem_cons.mpr ⟨⟨regex, parsed⟩, accepted⟩⟩
    exact congrArg (text :: ·) sources

private theorem refusedAt_of_split {source text : List Char} {before after : List (Nat × List Char)}
    {number : Nat} {cause : Regex.SyntaxError}
    (lines : numberedLines source = before ++ (number, text) :: after)
    (compiled : ∀ line, line ∈ before → ∃ entry, Entry.compile line.2 = .ok entry)
    (refused : Entry.compile text = .error cause) :
    RefusedAt (Text.rows source) ⟨number, cause⟩ := by
  obtain ⟨front, back, rows, rfl, filled, earlier⟩ := numberedLines_split lines
  refine ⟨front.length, text, by simp [rows], rfl, filled,
    Entry.compile_eq_error_iff.mp refused, ?_⟩
  intro index row less place
  rw [rows, List.getElem?_append_left less] at place
  rcases earlier row (List.mem_of_getElem? place) with empty | known
  · exact .inl empty
  · obtain ⟨line, member, rfl⟩ := List.mem_map.mp known
    obtain ⟨entry, done⟩ := compiled line member
    obtain ⟨regex, parsed, -⟩ := Entry.compile_eq_ok_iff.mp done
    exact .inr ⟨regex, parsed⟩

theorem load_ok {source : List Char} {puzzle : Puzzle} (loaded : load source = .ok puzzle) :
    (∀ row, row ∈ Text.rows source → row ≠ [] → Accepted row) ∧
      puzzle.sources = (Text.rows source).filter (fun row => !row.isEmpty) ∧ puzzle.Aligned := by
  rcases load_cases source with ⟨entries, also, compiled⟩ | ⟨_, _, _, _, _, -, -, -, refused⟩
  · obtain rfl := Except.ok.inj (loaded.symm.trans also)
    obtain ⟨compile, sources, accepted⟩ := compiles_of_forall₂ compiled
    rw [texts_eq] at sources accepted
    refine ⟨?_, sources, aligned_ofEntries compile⟩
    intro row member filled
    exact accepted row (List.mem_filter.mpr ⟨member, by simpa using filled⟩)
  · rw [refused] at loaded
    contradiction

private theorem load_error {source : List Char} {error : PuzzleError}
    (refused : load source = .error error) : RefusedAt (Text.rows source) error := by
  rcases load_cases source with
    ⟨entries, loaded, -⟩ | ⟨before, number, text, after, cause, lines, compiled, rejected, also⟩
  · rw [refused] at loaded
    contradiction
  · obtain rfl := Except.error.inj (refused.symm.trans also)
    exact refusedAt_of_split lines compiled rejected

/-- A text gives a puzzle if, and only if, every row that is not empty is an expression. The sources
    of the puzzle are these rows in their order, and all else in it is made from them. Otherwise the
    text is refused at the first row that is no expression, with the error that the row gives. -/
theorem load_all_or_refused (source : List Char) :
    List.Forall₂ Text.Trims (source.splitOn '\n') (Text.rows source) ∧
    ((∃ puzzle, load source = .ok puzzle) ↔
      ∀ row, row ∈ Text.rows source → row ≠ [] → Accepted row) ∧
    (∀ puzzle, load source = .ok puzzle ↔
      (∀ row, row ∈ Text.rows source → row ≠ [] → Accepted row) ∧
        puzzle.sources = (Text.rows source).filter (fun row => !row.isEmpty) ∧ puzzle.Aligned) ∧
    ∀ error, load source = .error error ↔ RefusedAt (Text.rows source) error := by
  refine ⟨?_, ?_, ?_, ?_⟩
  · rw [Text.rows, List.forall₂_map_right_iff, List.forall₂_same]
    exact fun line _ => Text.trims_trim line
  · constructor
    · rintro ⟨puzzle, loaded⟩
      exact (load_ok loaded).1
    · intro accepted
      cases loaded : load source with
      | ok puzzle => exact ⟨puzzle, rfl⟩
      | error error => exact absurd accepted (load_error loaded).not_accepted
  · intro puzzle
    constructor
    · exact load_ok
    · rintro ⟨accepted, sources, aligned⟩
      cases loaded : load source with
      | ok other =>
        obtain ⟨-, also, otherAligned⟩ := load_ok loaded
        rw [aligned.ext otherAligned (sources.trans also.symm)]
      | error error => exact absurd accepted (load_error loaded).not_accepted
  · intro error
    constructor
    · exact load_error
    · intro refused
      cases loaded : load source with
      | ok puzzle => exact absurd (load_ok loaded).1 refused.not_accepted
      | error other => rw [refused.unique (load_error loaded)]

example : load "a \r\n\u3000\n (b\r\n)".toList = .error ⟨3, ⟨2, none, .closeParen⟩⟩ := by
  decide +kernel

end CommonWord.Puzzle
