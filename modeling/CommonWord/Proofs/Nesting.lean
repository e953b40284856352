import CommonWord.Regex.Grammar

/-!
How many groups are open at the places of a derived text. A phrase closes every group it opens and
no other, so the groups that are open inside it add to those that are open around it.
-/

namespace CommonWord.Regex

/-- Every group that a text opens is closed in it, and no other. -/
structure Nested (text : List Char) : Prop where
  balanced : text.count '(' = text.count ')'
  opened : ∀ front, front <+: text → front.count ')' ≤ front.count '('

theorem prefix_append_split {front left right : List Char} (inside : front <+: left ++ right) :
    front <+: left ∨ ∃ rest, front = left ++ rest ∧ rest <+: right := by
  rcases List.prefix_or_prefix_of_prefix inside (List.prefix_append left right) with
    before | ⟨rest, rfl⟩
  · exact .inl before
  · exact .inr ⟨rest, rfl, (List.prefix_append_right_inj left).mp inside⟩

/-! ### Nested texts -/

theorem nested_plain {text : List Char} (noOpen : '(' ∉ text) (noClose : ')' ∉ text) :
    Nested text := by
  refine ⟨?_, fun front inside => ?_⟩
  · rw [List.count_eq_zero.mpr noOpen, List.count_eq_zero.mpr noClose]
  · have absent : ')' ∉ front := fun member => noClose (inside.subset member)
    rw [List.count_eq_zero.mpr absent]
    exact Nat.zero_le _

theorem Nested.append {left right : List Char} (first : Nested left) (second : Nested right) :
    Nested (left ++ right) := by
  refine ⟨?_, fun front inside => ?_⟩
  · rw [List.count_append, List.count_append, first.balanced, second.balanced]
  · rcases prefix_append_split inside with before | ⟨rest, rfl, after⟩
    · exact first.opened front before
    · have := second.opened rest after
      rw [List.count_append, List.count_append, first.balanced]
      omega

theorem Nested.group {inside : List Char} (content : Nested inside) :
    Nested ('(' :: inside ++ [')']) := by
  have balanced := content.balanced
  refine ⟨by simp [balanced], fun front place => ?_⟩
  rcases prefix_append_split place with before | ⟨rest, rfl, after⟩
  · rcases List.prefix_cons_iff.mp before with rfl | ⟨part, rfl, within⟩
    · simp
    · have := content.opened part within
      simp only [List.count_cons_self, List.count_cons_of_ne, ne_eq,
        not_false_eq_true, Char.reduceEq]
      omega
  · have few := after.sublist.count_le ')'
    simp only [List.count_singleton_self] at few
    simp [balanced]
    omega

private theorem suffix_plain {suffix : List Char} {wrap : Regex → Regex}
    (suffixed : Suffix suffix wrap) : Nested suffix := by
  cases suffixed <;> exact nested_plain (by decide) (by decide)

/-- Every phrase closes the groups that it opens. -/
theorem Derives.nested {phrase : Phrase} {text : List Char} {regex : Regex}
    (derived : Derives phrase text regex) : Nested text := by
  induction derived with
  | @letter c low high =>
    have ordinary : c ≠ '(' ∧ c ≠ ')' := by
      constructor <;> rintro rfl <;> exact absurd low (by decide)
    exact nested_plain (by simpa using ordinary.1.symm) (by simpa using ordinary.2.symm)
  | @group inside suffix inner wrap content suffixed ih =>
    have apart : '(' :: inside ++ ')' :: suffix = ('(' :: inside ++ [')']) ++ suffix := by simp
    rw [apart]
    exact ih.group.append (suffix_plain suffixed)
  | single only ih => exact ih
  | @both left right first second before after beforeIh afterIh =>
    have bar : Nested ['|'] := nested_plain (by decide) (by decide)
    exact beforeIh.append (bar.append afterIh)
  | one only ih => exact ih
  | more before after beforeIh afterIh => exact beforeIh.append afterIh

/-! ### Open groups -/

theorem openGroups_append {left : List Char} (nested : Nested left) (right : List Char) :
    openGroups (left ++ right) = openGroups right := by
  have := nested.balanced
  simp only [openGroups, List.count_append]
  omega

/-- At no place of a text are more groups open than this. -/
def Within (depth : Nat) (text : List Char) : Prop :=
  ∀ front, front <+: text → openGroups front ≤ depth

theorem Within.mono {depth deeper : Nat} {text : List Char} (within : Within depth text)
    (le : depth ≤ deeper) : Within deeper text :=
  fun front inside => Nat.le_trans (within front inside) le

theorem within_plain {text : List Char} (noOpen : '(' ∉ text) (depth : Nat) :
    Within depth text := by
  intro front inside
  have absent : '(' ∉ front := fun member => noOpen (inside.subset member)
  rw [openGroups, List.count_eq_zero.mpr absent, Nat.zero_sub]
  exact Nat.zero_le depth

theorem within_append_iff {depth : Nat} {left : List Char} (nested : Nested left)
    (right : List Char) : Within depth (left ++ right) ↔ Within depth left ∧ Within depth right := by
  constructor
  · intro within
    refine ⟨fun front inside => within front (inside.trans (List.prefix_append left right)), ?_⟩
    intro front inside
    rw [← openGroups_append nested]
    exact within (left ++ front) ((List.prefix_append_right_inj left).mpr inside)
  · rintro ⟨first, second⟩ front inside
    rcases prefix_append_split inside with before | ⟨rest, rfl, after⟩
    · exact first front before
    · rw [openGroups_append nested]
      exact second rest after

theorem Within.group {depth : Nat} {inside : List Char} (within : Within depth inside)
    (nested : Nested inside) : Within (depth + 1) ('(' :: inside ++ [')']) := by
  intro front place
  rcases prefix_append_split place with before | ⟨rest, rfl, closing⟩
  · rcases List.prefix_cons_iff.mp before with rfl | ⟨part, rfl, begun⟩
    · exact Nat.zero_le _
    · have := within part begun
      simp only [openGroups, List.count_cons_self, List.count_cons_of_ne, ne_eq,
        not_false_eq_true, Char.reduceEq] at this ⊢
      omega
  · have := nested.balanced
    have none : rest.count '(' ≤ 0 := closing.sublist.count_le '('
    simp only [openGroups, List.count_append, List.count_cons_self, List.count_cons_of_ne, ne_eq,
      not_false_eq_true, Char.reduceEq]
    omega

theorem Within.inside {depth : Nat} {inside after : List Char}
    (within : Within depth ('(' :: inside ++ after)) (nested : Nested inside) :
    ∃ less, depth = less + 1 ∧ Within less inside := by
  have deeper : ∀ front, front <+: inside → openGroups front + 1 ≤ depth := by
    intro front part
    have bound := within ('(' :: front)
      (((List.prefix_cons_inj '(').mpr part).trans (List.prefix_append _ after))
    have := nested.opened front part
    simp only [openGroups, List.count_cons_self, List.count_cons_of_ne, ne_eq,
      not_false_eq_true, Char.reduceEq] at bound ⊢
    omega
  have some := deeper [] List.nil_prefix
  refine ⟨depth - 1, by omega, fun front part => ?_⟩
  have := deeper front part
  omega

/-! ### Groups open around a text -/

/-- Around a text so many groups are open that at no place of it there are too many. -/
def Fits (depth : Nat) (text : List Char) : Prop :=
  ∀ front, front <+: text → depth + openGroups front ≤ maxDepth

private theorem fits_iff (depth : Nat) (text : List Char) :
    Fits depth text ↔ depth ≤ maxDepth ∧ Within (maxDepth - depth) text := by
  constructor
  · intro fits
    have first := fits [] List.nil_prefix
    refine ⟨by omega, fun front inside => ?_⟩
    have := fits front inside
    omega
  · rintro ⟨few, within⟩ front inside
    have := within front inside
    omega

theorem fits_zero_iff (text : List Char) : Fits 0 text ↔ Shallow text := by
  simp only [Fits, Shallow, Nat.zero_add]

theorem Fits.left {depth : Nat} {left right : List Char} (fits : Fits depth (left ++ right)) :
    Fits depth left :=
  fun front inside => fits front (List.prefix_append_of_prefix inside)

theorem Fits.right {depth : Nat} {left right : List Char} (fits : Fits depth (left ++ right))
    (nested : Nested left) : Fits depth right := by
  rw [fits_iff, within_append_iff nested] at fits
  exact (fits_iff depth right).mpr ⟨fits.1, fits.2.2⟩

/-- Inside a group one more group is open. -/
theorem Fits.inside {depth : Nat} {inside after : List Char}
    (fits : Fits depth ('(' :: inside ++ after)) (nested : Nested inside) :
    depth < maxDepth ∧ Fits (depth + 1) inside := by
  rw [fits_iff] at fits
  obtain ⟨less, same, within⟩ := fits.2.inside nested
  have deeper : maxDepth - (depth + 1) = less := by omega
  refine ⟨by omega, (fits_iff _ _).mpr ⟨by omega, ?_⟩⟩
  rwa [deeper]

end CommonWord.Regex
