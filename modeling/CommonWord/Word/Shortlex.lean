import Mathlib.Data.Char
import Mathlib.Data.List.Shortlex

/-!
The shortlex order of words, in which shorter words come first and words of equal length are
compared at the first character in which they differ.
-/

namespace CommonWord.Word

/-- One word comes before another in the shortlex order. -/
def Precedes (earlier later : List Char) : Prop := List.Shortlex (· < ·) earlier later

/-- A word has a property and comes before all others that have it. -/
def IsLeast (property : List Char → Prop) (word : List Char) : Prop :=
  property word ∧ ∀ other, property other → other ≠ word → Precedes word other

/-- The order spelled out. -/
theorem precedes_iff (earlier later : List Char) :
    Precedes earlier later ↔
      earlier.length < later.length ∨ earlier.length = later.length ∧ earlier < later := by
  unfold Precedes
  rw [List.shortlex_def]
  rfl

end CommonWord.Word
