import CommonWord.Proofs.Printing
import CommonWord.Proofs.Refusals
import Mathlib.Data.List.Infix

/-!
How deep the groups of a text nest, and what becomes of a text of the grammar that nests too deep.

Any part of such a text can be completed without opening a group, so the reader gets over all of it
up to the first parenthesis that is one too many. For every tree whose empty words stand on the left
of unions that says exactly what reading its printed form comes to.
-/

namespace CommonWord.Regex

/-! ### The depth of a text -/

/-- The largest number of groups that are open at one place of a text. -/
def deepest (text : List Char) : Nat :=
  (text.inits.map openGroups).max (by cases text <;> simp)

theorem deepest_le_iff (text : List Char) (depth : Nat) :
    deepest text ≤ depth ↔ Within depth text := by
  rw [deepest, List.max_le_iff, List.forall_mem_map]
  constructor
  · intro bounded front inside
    exact bounded front ((List.mem_inits front text).mpr inside)
  · intro within front member
    exact within front ((List.mem_inits front text).mp member)

theorem shallow_iff_deepest (text : List Char) : Shallow text ↔ deepest text ≤ 256 :=
  (deepest_le_iff text maxDepth).symm

/-- A group is opened at this place inside 256 others, and at no place before it. -/
structure OneTooMany (text : List Char) (place : Nat) : Prop where
  opens : text[place]? = some '('
  full : openGroups (text.take place) = 256
  first : ∀ earlier, earlier < place → text[earlier]? = some '(' →
    openGroups (text.take earlier) ≠ 256

private theorem openGroups_open {text : List Char} (some : 0 < openGroups text) :
    openGroups (text ++ ['(']) = openGroups text + 1 := by
  simp only [openGroups, List.count_append, List.count_singleton, Char.reduceBEq, if_true,
    Bool.false_eq_true, if_false] at some ⊢
  omega

private theorem openGroups_other_le (text : List Char) {c : Char} (other : c ≠ '(') :
    openGroups (text ++ [c]) ≤ openGroups text := by
  simp only [openGroups, List.count_append, List.count_singleton, beq_iff_eq, other, if_false]
  omega

private theorem openGroups_append_le (text : List Char) {more : List Char} (plain : '(' ∉ more) :
    openGroups (text ++ more) ≤ openGroups text := by
  simp only [openGroups, List.count_append, List.count_eq_zero.mpr plain]
  omega

/-- A text that nests too deep does so first at some parenthesis. -/
theorem exists_oneTooMany {text : List Char} (deep : ¬ Shallow text) :
    ∃ front rest, text = front ++ '(' :: rest ∧ Shallow front ∧ openGroups front = maxDepth := by
  induction text using List.reverseRecOn with
  | nil => exact absurd (within_plain (by simp) maxDepth) deep
  | append_singleton text c ih =>
    by_cases shallow : Shallow text
    · have whole : maxDepth < openGroups (text ++ [c]) := by
        by_contra few
        apply deep
        intro front inside
        rcases List.prefix_concat_iff.mp inside with rfl | before
        · exact Nat.le_of_not_lt few
        · exact shallow front before
      have before := shallow text List.prefix_rfl
      obtain rfl : c = '(' := by
        by_contra other
        have := openGroups_other_le text other
        omega
      have some : 0 < openGroups text := by
        have : openGroups (text ++ ['(']) ≤ openGroups text + 1 := by
          simp only [openGroups, List.count_append, List.count_singleton_self]
          omega
        rw [maxDepth] at whole
        omega
      rw [openGroups_open some] at whole
      exact ⟨text, [], rfl, shallow, by omega⟩
    · obtain ⟨front, rest, rfl, within, full⟩ := ih shallow
      exact ⟨front, rest ++ [c], by simp, within, full⟩

private theorem oneTooMany_append {front : List Char} (shallow : Shallow front)
    (full : openGroups front = maxDepth) (rest : List Char) :
    OneTooMany (front ++ '(' :: rest) front.length := by
  refine ⟨by simp, by rw [List.take_left, full, maxDepth], ?_⟩
  intro earlier before opens also
  rw [List.getElem?_append_left before] at opens
  rw [List.take_append_of_le_length (Nat.le_of_lt before)] at also
  have next : front.take (earlier + 1) = front.take earlier ++ ['('] := by
    rw [List.take_add_one, opens]
    rfl
  have few := shallow _ (List.take_prefix (earlier + 1) front)
  rw [next, openGroups_open (by omega), also, maxDepth] at few
  omega

/-! ### Completing part of a text -/

private theorem Suffix.front {suffix part : List Char} {wrap : Regex → Regex}
    (suffixed : Suffix suffix wrap) (inside : part <+: suffix) : ∃ other, Suffix part other := by
  by_cases empty : part = []
  · subst empty
    exact ⟨id, .none⟩
  · have short : suffix.length ≤ 1 := by cases suffixed <;> simp
    have some := List.length_pos_of_ne_nil empty
    obtain rfl := inside.eq_of_length_le (by omega)
    exact ⟨wrap, suffixed⟩

/-- What was read of a phrase can be completed to one without opening a further group. -/
private theorem Derives.completed {phrase : Phrase} {text : List Char} {regex : Regex}
    (derived : Derives phrase text regex) {front : List Char} (inside : front <+: text) :
    ∃ rest other, '(' ∉ rest ∧ Derives phrase (front ++ rest) other := by
  have letter : Derives .term ['a'] (char 'a') := .letter (by decide) (by decide)
  induction derived generalizing front with
  | @letter c low high =>
    rcases List.prefix_cons_iff.mp inside with rfl | ⟨part, rfl, within⟩
    · exact ⟨['a'], _, by decide, letter⟩
    · obtain rfl := List.prefix_nil.mp within
      exact ⟨[], _, by simp, .letter low high⟩
  | @group content suffix inner wrap derived suffixed ih =>
    rcases prefix_append_split inside with before | ⟨part, rfl, within⟩
    · rcases List.prefix_cons_iff.mp before with rfl | ⟨part, rfl, within⟩
      · exact ⟨['a'], _, by decide, letter⟩
      · obtain ⟨rest, other, plain, completed⟩ := ih within
        refine ⟨rest ++ [')'], other, by simpa using plain, ?_⟩
        simpa using completed.group .none
    · rcases List.prefix_cons_iff.mp within with rfl | ⟨part, rfl, within⟩
      · exact ⟨[')'], _, by decide, by simpa using derived.group .none⟩
      · obtain ⟨other, suffixed⟩ := suffixed.front ((List.prefix_cons_inj ')').mp within)
        exact ⟨[], _, by simp, by simpa using derived.group suffixed⟩
  | single only ih =>
    obtain ⟨rest, other, plain, completed⟩ := ih inside
    exact ⟨rest, other, plain, .single completed⟩
  | @both left right first second before after beforeIh afterIh =>
    rcases prefix_append_split inside with within | ⟨part, rfl, within⟩
    · obtain ⟨rest, other, plain, completed⟩ := beforeIh within
      exact ⟨rest, other, plain, .single completed⟩
    · rcases List.prefix_cons_iff.mp within with rfl | ⟨part, rfl, within⟩
      · exact ⟨[], first, by simp, by simpa using Derives.single before⟩
      · obtain ⟨rest, other, plain, completed⟩ := afterIh ((List.prefix_cons_inj '|').mp within)
        exact ⟨rest, _, plain, by simpa using before.both completed⟩
  | one only ih =>
    obtain ⟨rest, other, plain, completed⟩ := ih inside
    exact ⟨rest, other, plain, .one completed⟩
  | @more left right chain next before after beforeIh afterIh =>
    rcases prefix_append_split inside with within | ⟨part, rfl, within⟩
    · exact beforeIh within
    · obtain ⟨rest, other, plain, completed⟩ := afterIh within
      exact ⟨rest, _, plain, by simpa using before.more completed⟩

private theorem Shallow.append_plain {front more : List Char} (shallow : Shallow front)
    (plain : '(' ∉ more) : Shallow (front ++ more) := by
  intro part inside
  rcases prefix_append_split inside with before | ⟨rest, rfl, after⟩
  · exact shallow part before
  · have absent : '(' ∉ rest := fun member => plain (after.subset member)
    exact (openGroups_append_le front absent).trans (shallow front List.prefix_rfl)

/-- The reader gets over every part of a text of the grammar that does not nest too deep. -/
theorem Derives.reads_front {text : List Char} {regex : Regex}
    (derived : Derives .expression text regex) {front : List Char} (inside : front <+: text)
    (shallow : Shallow front) : ∃ last, Reader.initial.after front = .ok last := by
  obtain ⟨rest, other, plain, completed⟩ := derived.completed inside
  have parsed := Reads.parse_eq ⟨completed, shallow.append_plain plain⟩
  obtain ⟨final, read, -⟩ := (Reader.run_eq_ok_iff ..).mp parsed
  obtain ⟨last, front, -⟩ := (Reader.after_append_iff ..).mp read
  exact ⟨last, front⟩

private theorem Derives.parse_of_deep {text : List Char} {regex : Regex}
    (derived : Derives .expression text regex) (deep : ¬ Shallow text) :
    ∃ place, OneTooMany text place ∧ parse text = .error ⟨place, some '(', .letter⟩ := by
  obtain ⟨front, rest, rfl, shallow, full⟩ := exists_oneTooMany deep
  obtain ⟨last, read⟩ := derived.reads_front (List.prefix_append ..) shallow
  have holds : last.Holds front := by simpa using Reader.holds_initial.after read
  have most : maxDepth ≤ last.enclosing.length := by
    rw [← holds.openGroups_eq, full]
  refine ⟨front.length, oneTooMany_append shallow full rest, ?_⟩
  rw [parse, Reader.run_append read, Nat.zero_add]
  exact Reader.Refuses.run_eq ('(' :: rest) (Reader.step_open_deep most) front.length

/-- Every tree that is read is one of letters and of empty words on the left of unions. Of these
    trees, each is read back from its printed form if that has at most 256 groups open at any place.
    Otherwise the printed form is refused at the first parenthesis that opens one group more. -/
theorem parse_render_spelled :
    (∀ text regex, parse text = .ok regex → Spelled regex) ∧
    ∀ regex, Spelled regex →
      (deepest regex.render ≤ 256 → parse regex.render = .ok regex) ∧
      (256 < deepest regex.render → ∃ place, OneTooMany regex.render place ∧
        parse regex.render = .error ⟨place, some '(', .letter⟩) := by
  refine ⟨fun text regex parsed => (reads_of_parse parsed).1.spelled, ?_⟩
  intro regex spelled
  have derived : Derives .expression regex.render regex := render_eq regex ▸ spelled.derives.1
  rw [← Nat.not_le, ← shallow_iff_deepest]
  exact ⟨fun shallow => Reads.parse_eq ⟨derived, shallow⟩, derived.parse_of_deep⟩

/-- Repetitions of repetitions, each printed in one group. -/
def stars : Nat → Regex
  | 0 => char 'a'
  | depth + 1 => star (stars depth)

private theorem spelled_stars (depth : Nat) : Spelled (stars depth) := by
  induction depth with
  | zero => exact .char (by decide) (by decide)
  | succ depth ih => exact .star ih

private theorem within_stars (depth : Nat) : Within depth (stars depth).written := by
  induction depth with
  | zero => exact within_plain (by decide) 0
  | succ depth ih => exact ih.suffixed (spelled_stars depth).nested (by decide)

private theorem opened_stars (depth : Nat) :
    List.replicate depth '(' <+: (stars depth).written := by
  induction depth with
  | zero => exact List.nil_prefix
  | succ depth ih =>
    exact (List.prefix_cons_inj '(').mpr (ih.trans (List.prefix_append _ [')', '*']))

private theorem deepest_stars (depth : Nat) : deepest (stars depth).render = depth := by
  rw [render_eq]
  apply Nat.le_antisymm
  · exact (deepest_le_iff _ _).mpr (within_stars depth)
  · have within := (deepest_le_iff _ _).mp (Nat.le_refl (deepest (stars depth).written))
    simpa [openGroups, List.count_replicate] using within _ (opened_stars depth)

theorem parse_render_spelled_stars :
    parse (stars 256).render = .ok (stars 256) ∧
      ∃ place, OneTooMany (stars 257).render place ∧
        parse (stars 257).render = .error ⟨place, some '(', .letter⟩ := by
  obtain ⟨-, law⟩ := parse_render_spelled
  have fits : deepest (stars 256).render ≤ 256 := Nat.le_of_eq (deepest_stars 256)
  have exceeds : 256 < deepest (stars 257).render := by
    rw [deepest_stars]
    decide
  exact ⟨(law (stars 256) (spelled_stars 256)).1 fits,
    (law (stars 257) (spelled_stars 257)).2 exceeds⟩

end CommonWord.Regex
