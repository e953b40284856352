import CommonWord.Proofs.Alignment

/-!
The puzzle of two texts with a line feed between them.

The rows of the two texts follow each other, and all that a row is told by is its number. So reading
goes on in the second text where it ended in the first, with the line feeds before it added to the
numbers. Carriage returns before the line feeds are blanks at the ends of rows.
-/

namespace CommonWord

namespace Text

/-! ### Rows -/

theorem rows_joined (first second : List Char) :
    rows (first ++ '\n' :: second) = rows first ++ rows second := by
  rw [rows, List.splitOn_append_cons_self, List.map_append, rows, rows]

theorem rows_plain {line : List Char} (plain : '\n' ∉ line) : rows line = [trim line] := by
  rw [rows, List.splitOn_eq_singleton plain, List.map_singleton]

/-- A text has one row more than line feeds. -/
theorem length_rows (text : List Char) : (rows text).length = text.count '\n' + 1 := by
  induction text with
  | nil => rfl
  | cons c text ih =>
    rw [rows, List.length_map] at ih ⊢
    by_cases feed : c = '\n'
    · rw [feed, splitOn_feed, List.length_cons, ih, List.count_cons_self]
    · rw [splitOn_other feed, List.length_modifyHead, ih, List.count_cons_of_ne feed]

/-- The text with a carriage return before every line feed. -/
def withReturns (text : List Char) : List Char :=
  text.flatMap fun c => if c = '\n' then ['\r', '\n'] else [c]

private theorem rows_withReturns (text : List Char) : rows (withReturns text) = rows text := by
  -- What was read of a row goes along, since a return is trimmed with the row before it.
  suffices follow : ∀ read : List Char, '\n' ∉ read →
      rows (read ++ withReturns text) = rows (read ++ text) from follow [] (by simp)
  induction text with
  | nil => simp [withReturns]
  | cons c text ih =>
    intro read plain
    by_cases feed : c = '\n'
    · have returned : '\n' ∉ read ++ ['\r'] := by simp [plain]
      have split : read ++ withReturns (c :: text) =
          (read ++ ['\r']) ++ '\n' :: withReturns text := by
        simp [withReturns, feed]
      rw [split, feed, rows_joined, rows_joined, rows_plain returned, rows_plain plain,
        trim_concat (by decide)]
      exact congrArg _ (ih [] (by simp))
    · have longer : '\n' ∉ read ++ [c] := by simp [plain, Ne.symm feed]
      have split : read ++ withReturns (c :: text) = (read ++ [c]) ++ withReturns text := by
        simp [withReturns, feed]
      rw [split, ih (read ++ [c]) longer, List.append_assoc, List.singleton_append]

end Text

namespace Puzzle

/-! ### Readings -/

/-- What comes of lines whose numbers are greater by this much. -/
def Reading.later (reading : Reading) (count : Nat) : Reading where
  compiled := reading.compiled.map fun (line, entry) => (line + count, entry)
  rejected := reading.rejected.map fun error => ⟨error.line + count, error.cause⟩

/-- What comes of lines and of others after them, which are not read if one was rejected before. -/
def Reading.andThen (first second : Reading) : Reading :=
  match first.rejected with
  | some _ => first
  | none => ⟨first.compiled ++ second.compiled, second.rejected⟩

private theorem compileLines_append (lines others : List (Nat × List Char)) :
    compileLines (lines ++ others) = (compileLines lines).andThen (compileLines others) := by
  induction lines with
  | nil => rfl
  | cons line lines ih =>
    obtain ⟨number, text⟩ := line
    rw [List.cons_append, compileLines, compileLines]
    cases Entry.compile text with
    | error cause => rfl
    | ok entry =>
      rw [ih]
      obtain ⟨compiled, rejected⟩ := compileLines lines
      cases rejected <;> rfl

private theorem compileLines_later (lines : List (Nat × List Char)) (count : Nat) :
    compileLines (lines.map fun (number, text) => (number + count, text)) =
      (compileLines lines).later count := by
  induction lines with
  | nil => rfl
  | cons line lines ih =>
    obtain ⟨number, text⟩ := line
    rw [List.map_cons, compileLines, compileLines]
    cases Entry.compile text with
    | error cause => rfl
    | ok entry => simp [ih, Reading.later]

private theorem numberedLines_joined (first second : List Char) :
    numberedLines (first ++ '\n' :: second) = numberedLines first ++
      (numberedLines second).map fun (number, text) =>
        (number + (first.count '\n' + 1), text) := by
  rw [numberedLines_eq, numberedLines_eq, numberedLines_eq, Text.rows_joined, List.zipIdx_append,
    List.filterMap_append, Text.length_rows]
  refine congrArg _ ?_
  rw [List.zipIdx_eq_map_add, List.zipIdx_eq_map_add (i := 1), List.filterMap_map,
    List.filterMap_map, List.map_filterMap]
  apply List.filterMap_congr
  rintro ⟨row, place⟩ -
  by_cases empty : row = []
  · simp [empty]
  · have moved : 1 + (first.count '\n' + 1) + place = 1 + place + (first.count '\n' + 1) := by omega
    simp [empty, moved]

/-- Reading a text after another one goes on where the other ended. -/
theorem read_joined (first second : List Char) :
    read (first ++ '\n' :: second) =
      (read first).andThen ((read second).later (first.count '\n' + 1)) := by
  rw [read, numberedLines_joined, compileLines_append, compileLines_later]
  rfl

private theorem read_congr {source other : List Char} (same : Text.rows source = Text.rows other) :
    read source = read other := by
  rw [read, read, numberedLines_eq, numberedLines_eq, same]

/-! ### Puzzles -/

/-- The puzzle with the expressions of another one after its own. -/
def followedBy (first second : Puzzle) : Puzzle where
  sources := first.sources ++ second.sources
  regexes := first.regexes ++ second.regexes
  nfas := first.nfas ++ second.nfas
  dfas := first.dfas ++ second.dfas

private theorem ofEntries_append (entries others : List Entry) :
    ofEntries (entries ++ others) = (ofEntries entries).followedBy (ofEntries others) := by
  simp [ofEntries, followedBy]

/-- Two texts with a line feed between them are refused where the first one is, and otherwise where
    the second one is, with the line feeds before it counted. If neither is refused, they give the
    puzzle of the first followed by that of the second. A text gives the same puzzle or the same
    error with a carriage return before every line feed. -/
theorem load_joined :
    (∀ first second : List Char, load (first ++ '\n' :: second) =
      match load first, load second with
      | .error error, _ => .error error
      | .ok _, .error error => .error ⟨error.line + 1 + first.count '\n', error.cause⟩
      | .ok before, .ok after => .ok (before.followedBy after)) ∧
    ∀ source : List Char, load (Text.withReturns source) = load source := by
  constructor
  · intro first second
    rw [load, load, load, read_joined]
    generalize read first = before
    generalize read second = after
    obtain ⟨entries, refused⟩ := before
    obtain ⟨others, alsoRefused⟩ := after
    cases refused with
    | some error => rfl
    | none =>
      cases alsoRefused with
      | some error =>
        have moved : error.line + (first.count '\n' + 1) = error.line + 1 + first.count '\n' := by
          omega
        simp [Reading.andThen, Reading.later, moved]
      | none => simp [Reading.andThen, Reading.later, ofEntries_append, Function.comp_def]
  · intro source
    rw [load, load, read_congr (Text.rows_withReturns source)]

end Puzzle

end CommonWord
