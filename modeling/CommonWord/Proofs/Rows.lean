import CommonWord.Text.Blank
import CommonWord.Text.Lines
import Mathlib.Data.List.TakeWhile

/-!
The trimmed rows of a text, which are what stands between its line feeds.

A carriage return before a line feed is blank, and so is a row that is left out because it is empty.
So nothing but the line feeds decides which trimmed lines a text has and what their numbers are.
-/

namespace CommonWord.Text

/-! ### Trimming -/

/-- A text is what is left of a line without the blanks at its ends. -/
structure Trims (line text : List Char) : Prop where
  margins : ∃ left right, line = left ++ text ++ right ∧
    (∀ c, c ∈ left → isBlank c = true) ∧ ∀ c, c ∈ right → isBlank c = true
  first : ∀ c, text.head? = some c → isBlank c = false
  last : ∀ c, text.getLast? = some c → isBlank c = false

theorem dropWhile_margin {α : Type} {property : α → Bool} {margin rest : List α}
    (all : ∀ x, x ∈ margin → property x = true)
    (first : ∀ x, rest.head? = some x → property x = false) :
    (margin ++ rest).dropWhile property = rest := by
  rw [List.dropWhile_append_of_pos all]
  cases rest with
  | nil => rfl
  | cons x rest => rw [List.dropWhile_cons_of_neg (by simp [first x rfl])]

private theorem Trims.trim_eq {line text : List Char} (trims : Trims line text) :
    trim line = text := by
  obtain ⟨left, right, rfl, blankLeft, blankRight⟩ := trims.margins
  have tail : trimEnd (text ++ right) = text := by
    rw [trimEnd, List.reverse_append, dropWhile_margin, List.reverse_reverse]
    · simpa using blankRight
    · simpa using trims.last
  rw [trim, List.append_assoc]
  cases text with
  | nil =>
    have blank : ∀ c, c ∈ left ++ right → isBlank c = true := by
      intro c member
      rcases List.mem_append.mp member with before | after
      · exact blankLeft c before
      · exact blankRight c after
    have nothing : (left ++ right).dropWhile isBlank = [] := List.dropWhile_eq_nil_iff.mpr blank
    rw [List.nil_append, nothing]
    rfl
  | cons c rest =>
    rw [dropWhile_margin blankLeft (by simpa using trims.first), tail]

private theorem head?_dropWhile_blank {text : List Char} {c : Char}
    (found : (text.dropWhile isBlank).head? = some c) : isBlank c = false := by
  have plain := List.head?_dropWhile_not isBlank text
  rw [found] at plain
  exact plain

private theorem trimEnd_append_margin (text : List Char) :
    trimEnd text ++ (text.reverse.takeWhile isBlank).reverse = text := by
  rw [trimEnd, ← List.reverse_append, List.takeWhile_append_dropWhile, List.reverse_reverse]

theorem trims_trim (line : List Char) : Trims line (trim line) := by
  have whole := trimEnd_append_margin (line.dropWhile isBlank)
  constructor
  · refine ⟨line.takeWhile isBlank, ((line.dropWhile isBlank).reverse.takeWhile isBlank).reverse,
      ?_, fun c member => List.mem_takeWhile_imp member, ?_⟩
    · rw [trim, List.append_assoc, whole, List.takeWhile_append_dropWhile]
    · intro c member
      exact List.mem_takeWhile_imp (List.mem_reverse.mp member)
  · intro c found
    have front : (line.dropWhile isBlank).head? = some c := by
      rw [trim] at found
      rw [← whole, List.head?_append, found]
      rfl
    exact head?_dropWhile_blank front
  · intro c found
    rw [trim, trimEnd, List.getLast?_reverse] at found
    exact head?_dropWhile_blank found

/-- One more blank at the end makes no difference. -/
theorem trim_concat {c : Char} (blank : isBlank c = true) (line : List Char) :
    trim (line ++ [c]) = trim line := by
  have trims := trims_trim line
  obtain ⟨left, right, whole, blankLeft, blankRight⟩ := trims.margins
  apply Trims.trim_eq
  refine ⟨⟨left, right ++ [c], ?_, blankLeft, ?_⟩, trims.first, trims.last⟩
  · rw [← List.append_assoc, ← whole]
  · intro d member
    rcases List.mem_append.mp member with before | last
    · exact blankRight d before
    · obtain rfl := List.mem_singleton.mp last
      exact blank

/-! ### Rows -/

/-- What stands between the line feeds of a text, trimmed. -/
def rows (text : List Char) : List (List Char) := (text.splitOn '\n').map trim

private theorem trim_dropReturn (read : List Char) :
    trim (dropReturn read).reverse = trim read.reverse := by
  unfold dropReturn
  split
  · next before =>
    rw [List.reverse_cons]
    exact (trim_concat (by decide) before.reverse).symm
  · rfl

theorem splitOn_feed (text : List Char) :
    ('\n' :: text).splitOn '\n' = [] :: text.splitOn '\n' := by
  simp [List.splitOn_eq_splitOnP, List.splitOnP_cons_eq_if_modifyHead]

theorem splitOn_other {c : Char} (other : c ≠ '\n') (text : List Char) :
    (c :: text).splitOn '\n' = (text.splitOn '\n').modifyHead (c :: ·) := by
  simp [List.splitOn_eq_splitOnP, List.splitOnP_cons_eq_if_modifyHead, other]

private theorem modifyHead_nil_append (pieces : List (List Char)) :
    pieces.modifyHead ([] ++ ·) = pieces := by
  cases pieces <;> rfl

/-- The lines that follow what was read of one are the rows from there on, of which the last is left
    out if it is empty. -/
private theorem map_trim_linesAfter (read text : List Char) :
    ∃ rest, (rest = [] ∨ rest = [[]]) ∧
      ((text.splitOn '\n').modifyHead (read.reverse ++ ·)).map trim =
        (linesAfter read text).map trim ++ rest := by
  induction text generalizing read with
  | nil =>
    cases read with
    | nil => exact ⟨[[]], .inr rfl, rfl⟩
    | cons c before => exact ⟨[], .inl rfl, by simp [linesAfter]⟩
  | cons c text ih =>
    rw [linesAfter]
    by_cases feed : c = '\n'
    · obtain ⟨rest, few, same⟩ := ih []
      refine ⟨rest, few, ?_⟩
      rw [List.reverse_nil, modifyHead_nil_append] at same
      rw [feed, splitOn_feed, if_pos rfl]
      simpa [trim_dropReturn] using same
    · obtain ⟨rest, few, same⟩ := ih (c :: read)
      refine ⟨rest, few, ?_⟩
      rw [splitOn_other feed, if_neg feed, ← same, List.modifyHead_modifyHead]
      simp [Function.comp_def]

theorem rows_eq (text : List Char) :
    ∃ rest, (rest = [] ∨ rest = [[]]) ∧ rows text = (lines text).map trim ++ rest := by
  obtain ⟨rest, few, same⟩ := map_trim_linesAfter [] text
  rw [List.reverse_nil, modifyHead_nil_append] at same
  exact ⟨rest, few, same⟩

end CommonWord.Text
