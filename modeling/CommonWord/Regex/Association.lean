import CommonWord.Regex.Basic

/-!
Expressions that differ only in how their concatenations are associated.
-/

namespace CommonWord.Regex

/-- Concatenations anywhere in one tree can be associated anew to give the other. -/
inductive Reassociates : Regex → Regex → Prop where
  | refl (regex : Regex) : Reassociates regex regex
  | symm {first second : Regex} (same : Reassociates first second) : Reassociates second first
  | trans {first second third : Regex} (before : Reassociates first second)
      (after : Reassociates second third) : Reassociates first third
  | assoc (first second third : Regex) :
      Reassociates (concat (concat first second) third) (concat first (concat second third))
  | concat {left right first second : Regex} (before : Reassociates left first)
      (after : Reassociates right second) :
      Reassociates (concat left right) (concat first second)
  | union {left right first second : Regex} (before : Reassociates left first)
      (after : Reassociates right second) : Reassociates (union left right) (union first second)
  | star {inner other : Regex} (inside : Reassociates inner other) :
      Reassociates (star inner) (star other)

/-- What is no concatenation stands alone, and a concatenation can be associated so that its head is
    none. -/
theorem exists_head (regex : Regex) : regex.isConcat = false ∨
    ∃ head rest, Reassociates regex (.concat head rest) ∧ head.isConcat = false ∧
      sizeOf head < sizeOf regex ∧ sizeOf rest < sizeOf regex := by
  induction regex with
  | concat l r leftIh _ =>
    right
    rcases leftIh with plain | ⟨head, rest, same, plain, headSmall, restSmall⟩
    · refine ⟨l, r, .refl _, plain, ?_, ?_⟩
      all_goals simp only [concat.sizeOf_spec]; omega
    · refine ⟨head, .concat rest r, (same.concat (.refl r)).trans (.assoc head rest r), plain, ?_⟩
      simp only [concat.sizeOf_spec]
      omega
  | _ => exact .inl rfl

end CommonWord.Regex
