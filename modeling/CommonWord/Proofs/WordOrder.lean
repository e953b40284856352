import CommonWord.Word.Shortlex
import Mathlib.Data.List.Lex
import Mathlib.Data.String.Basic

/-!
The shortlex order is a strict order, with which appending a character agrees.
-/

namespace CommonWord.Word

theorem precedes_irrefl (word : List Char) : ¬ Precedes word word := by
  simp [precedes_iff]

theorem Precedes.trans {first second third : List Char} (earlier : Precedes first second)
    (later : Precedes second third) : Precedes first third := by
  rw [precedes_iff] at earlier later ⊢
  rcases earlier with shorter | ⟨sameLength, less⟩
  · exact .inl (by omega)
  · rcases later with shorter | ⟨alsoSame, alsoLess⟩
    · exact .inl (by omega)
    · exact .inr ⟨sameLength.trans alsoSame, lt_trans less alsoLess⟩

instance : Std.Irrefl Precedes := ⟨precedes_irrefl⟩

instance : Std.Antisymm Precedes :=
  ⟨fun first _ one two => absurd (one.trans two) (precedes_irrefl first)⟩

private theorem lex_append {first second : List Char} (less : List.Lex (· < ·) first second)
    (same : first.length = second.length) (left right : List Char) :
    List.Lex (· < ·) (first ++ left) (second ++ right) := by
  induction less with
  | nil => simp at same
  | cons _ ih => exact .cons (ih (Nat.succ.inj same))
  | rel step => exact .rel step

/-- Words in order stay in order whatever character is put after each. -/
theorem Precedes.concat {first second : List Char} (earlier : Precedes first second)
    (c d : Char) : Precedes (first ++ [c]) (second ++ [d]) := by
  unfold Precedes at earlier ⊢
  rw [List.shortlex_def] at earlier ⊢
  simp only [List.length_append, List.length_singleton]
  rcases earlier with shorter | ⟨same, less⟩
  · exact .inl (by omega)
  · exact .inr ⟨by omega, lex_append less same [c] [d]⟩

theorem precedes_concat_of_lt (word : List Char) {c d : Char} (less : c < d) :
    Precedes (word ++ [c]) (word ++ [d]) :=
  List.Shortlex.append_left ((List.shortlex_singleton_iff c d).mpr less) word

theorem precedes_concat (word : List Char) (c : Char) : Precedes word (word ++ [c]) :=
  List.Shortlex.of_length_lt (by simp)

/-- One word is another or comes before it. -/
def NotAfter (earlier later : List Char) : Prop := earlier = later ∨ Precedes earlier later

theorem NotAfter.trans {first second third : List Char} (earlier : NotAfter first second)
    (later : NotAfter second third) : NotAfter first third := by
  rcases earlier with rfl | before
  · exact later
  · rcases later with rfl | after
    · exact .inr before
    · exact .inr (before.trans after)

theorem Precedes.not_notAfter {first second : List Char} (earlier : Precedes first second) :
    ¬ NotAfter second first := by
  rintro (rfl | later)
  · exact precedes_irrefl _ earlier
  · exact precedes_irrefl first (earlier.trans later)

theorem NotAfter.concat {first second : List Char} (earlier : NotAfter first second) (c : Char) :
    NotAfter (first ++ [c]) (second ++ [c]) := by
  rcases earlier with rfl | before
  · exact .inl rfl
  · exact .inr (before.concat c c)

theorem notAfter_append (word rest : List Char) : NotAfter word (word ++ rest) := by
  rcases rest with _ | ⟨c, rest⟩
  · exact .inl (List.append_nil word).symm
  · exact .inr (List.Shortlex.of_length_lt (by simp))

theorem IsLeast.notAfter {property : List Char → Prop} {word other : List Char}
    (least : IsLeast property word) (holds : property other) : NotAfter word other := by
  by_cases same : other = word
  · exact .inl same.symm
  · exact .inr (least.2 other holds same)

/-- A property has at most one least word. -/
theorem IsLeast.unique {property : List Char → Prop} {first second : List Char}
    (one : IsLeast property first) (two : IsLeast property second) : first = second := by
  rcases one.notAfter two.1 with same | before
  · exact same
  · rcases two.notAfter one.1 with same | after
    · exact same.symm
    · exact absurd (before.trans after) (precedes_irrefl first)

end CommonWord.Word
