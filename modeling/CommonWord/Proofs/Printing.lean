import CommonWord.Proofs.Reading
import CommonWord.Regex.Printer
import Mathlib.Control.Monad.Basic

/-!
What is printed of a tree is read back as that tree, unless it nests too deep.

For every tree that a text stands for, the printer writes a text of the grammar that stands for the
same tree. But it can write three groups where the text had one, so the limit on open groups, which
the text kept, may be exceeded by what is printed.
-/

namespace CommonWord.Regex

/-! ### The trees of texts -/

/-- The trees that texts stand for: the empty word stands nowhere but on the left of a union. -/
inductive Spelled : Regex → Prop where
  | char {c : Char} (low : 'a' ≤ c) (high : c ≤ 'z') : Spelled (char c)
  | concat {left right : Regex} (before : Spelled left) (after : Spelled right) :
      Spelled (concat left right)
  | optional {inner : Regex} (content : Spelled inner) : Spelled (optional inner)
  | union {left right : Regex} (before : Spelled left) (after : Spelled right) :
      Spelled (union left right)
  | star {inner : Regex} (content : Spelled inner) : Spelled (star inner)

private theorem Suffix.spelled {suffix : List Char} {wrap : Regex → Regex}
    (suffixed : Suffix suffix wrap)
    {inner : Regex} (content : Spelled inner) : Spelled (wrap inner) := by
  cases suffixed with
  | none => exact content
  | star => exact .star content
  | plus => exact .concat content (.star content)
  | optional => exact .optional content

theorem Derives.spelled {phrase : Phrase} {text : List Char} {regex : Regex}
    (derived : Derives phrase text regex) : Spelled regex := by
  induction derived with
  | letter low high => exact .char low high
  | group _ suffixed content => exact suffixed.spelled content
  | single _ only => exact only
  | both _ _ before after => exact .union before after
  | one _ only => exact only
  | more _ _ before after => exact .concat before after

private theorem Spelled.isEpsilon {regex : Regex} (spelled : Spelled regex) :
    regex.isEpsilon = false := by
  cases spelled <;> rfl

/-! ### What is printed stands for the tree -/

/-- The written form of the right operand of a concatenation. -/
def operand (regex : Regex) : List Char :=
  if regex.isConcat then '(' :: regex.written ++ [')'] else regex.written

private theorem written_union {left : Regex} (spelled : Spelled left) (right : Regex) :
    (union left right).written = '(' :: (left.written ++ '|' :: right.written) ++ [')'] := by
  simp [written, spelled.isEpsilon]

/-- The printer writes a text of the grammar for the tree, and an operand as a single term. -/
theorem Spelled.derives {regex : Regex} (spelled : Spelled regex) :
    Derives .expression regex.written regex ∧ Derives .term regex.operand regex := by
  -- Both at once: a concatenation needs its right part as an operand, a group its content whole.
  induction spelled with
  | char low high => exact ⟨.one (.letter low high), .letter low high⟩
  | @concat left right _ _ before after =>
    have whole : Derives .expression (left.concat right).written _ := before.1.more after.2
    have term := Derives.group (.single whole) .none
    exact ⟨whole, term⟩
  | optional _ content =>
    have term := Derives.group (.single content.1) .optional
    exact ⟨.one term, term⟩
  | @union left right spelled _ before after =>
    have term := Derives.group (before.1.both after.1) .none
    rw [operand, written_union spelled]
    exact ⟨.one term, term⟩
  | star _ content =>
    have term := Derives.group (.single content.1) .star
    exact ⟨.one term, term⟩

/-! ### How deep the printed form nests -/

theorem Spelled.nested {regex : Regex} (spelled : Spelled regex) : Nested regex.written :=
  spelled.derives.1.nested

private theorem Within.operand {depth : Nat} {regex : Regex} (within : Within depth regex.written)
    (spelled : Spelled regex) : Within (depth + 1) regex.operand := by
  rw [Regex.operand]
  split
  · exact within.group spelled.nested
  · exact within.mono (Nat.le_succ depth)

private theorem Within.of_operand {depth : Nat} {regex : Regex}
    (within : Within depth regex.operand)
    (spelled : Spelled regex) : Within depth regex.written := by
  rw [Regex.operand] at within
  split at within
  · obtain ⟨less, rfl, inside⟩ := within.inside spelled.nested
    exact inside.mono (Nat.le_succ less)
  · exact within

theorem Within.suffixed {depth : Nat} {inside : List Char} (within : Within depth inside)
    (nested : Nested inside) {c : Char} (plain : c ≠ '(') :
    Within (depth + 1) ('(' :: inside ++ [')', c]) := by
  have apart : '(' :: inside ++ [')', c] = ('(' :: inside ++ [')']) ++ [c] := by simp
  rw [apart, within_append_iff nested.group]
  exact ⟨within.group nested, within_plain (by simpa using plain.symm) _⟩

/-- How deep the printed form of a phrase nests whose text nests at most so deep. -/
private def PrintedWithin (depth : Nat) (regex : Regex) : Phrase → Prop
  | .term => Within (3 * depth) regex.operand
  | .expression => Within (3 * depth) regex.written
  | .content => Within (3 * depth + 1) regex.written

/-- A repeated union that is itself an operand takes three groups: one of its own, one in which it
    is repeated, and one around both copies. -/
private theorem printed_suffix {depth : Nat} {inner : Regex} {suffix : List Char}
    {wrap : Regex → Regex} (suffixed : Suffix suffix wrap) (spelled : Spelled inner)
    (within : Within (3 * depth + 1) inner.written) :
    PrintedWithin (depth + 1) (wrap inner) .term := by
  have nested := spelled.nested
  cases suffixed with
  | none => exact (within.operand spelled).mono (by omega)
  | star => exact (within.suffixed nested (by decide)).mono (by omega)
  | plus =>
    have again : Within (3 * depth + 2) (star inner).operand :=
      within.suffixed nested (by decide)
    have both : Within (3 * depth + 2) (plus inner).written :=
      (within_append_iff nested _).mpr ⟨within.mono (by omega), again⟩
    exact both.operand (.concat spelled (.star spelled))
  | optional => exact (within.suffixed nested (by decide)).mono (by omega)

private theorem Derives.printedWithin {phrase : Phrase} {text : List Char} {regex : Regex}
    (derived : Derives phrase text regex) {depth : Nat} (within : Within depth text) :
    PrintedWithin depth regex phrase := by
  -- A content has one group more to spend than an expression, since a union is printed in a group
  -- of its own. The other two that a group of the text is worth are spent on its suffix.
  induction derived generalizing depth with
  | @letter c low high =>
    have plain : c ≠ '(' := by rintro rfl; exact absurd low (by decide)
    have letter : '(' ∉ (char c).operand := by simpa [operand, isConcat, written] using plain.symm
    exact within_plain letter _
  | group content suffixed ih =>
    obtain ⟨less, rfl, inside⟩ := within.inside content.nested
    exact printed_suffix suffixed content.spelled (ih inside)
  | single only ih => exact (ih within).mono (Nat.le_succ _)
  | @both left right first second before after beforeIh afterIh =>
    have bar : Nested ['|'] := nested_plain (by decide) (by decide)
    obtain ⟨inLeft, rest⟩ := (within_append_iff before.nested _).mp within
    obtain ⟨-, inRight⟩ := (within_append_iff bar right).mp rest
    have printed : Within (3 * depth) (first.written ++ '|' :: second.written) :=
      (within_append_iff before.spelled.nested _).mpr
        ⟨beforeIh inLeft, (within_append_iff bar _).mpr
          ⟨within_plain (by decide) _, afterIh inRight⟩⟩
    rw [PrintedWithin, written_union before.spelled]
    exact printed.group (before.spelled.nested.append (bar.append after.spelled.nested))
  | one only ih => exact (ih within).of_operand only.spelled
  | more before after beforeIh afterIh =>
    obtain ⟨inFront, inLast⟩ := (within_append_iff before.nested _).mp within
    exact (within_append_iff before.spelled.nested _).mpr ⟨beforeIh inFront, afterIh inLast⟩

/-! ### Reading what was printed -/

theorem derives_render {text : List Char} {regex : Regex} (parsed : parse text = .ok regex) :
    Derives .expression regex.render regex := by
  rw [render_eq]
  exact (reads_of_parse parsed).1.spelled.derives.1

theorem parse_render_iff_shallow {text : List Char} {regex : Regex}
    (parsed : parse text = .ok regex) :
    parse regex.render = .ok regex ↔ Shallow regex.render := by
  constructor
  · intro again
    exact (reads_of_parse again).2
  · intro shallow
    exact Reads.parse_eq ⟨derives_render parsed, shallow⟩

/-- At no place of what is printed are more than three times as many groups open as at some place
    of what was read. -/
theorem render_within {text : List Char} {regex : Regex} (parsed : parse text = .ok regex)
    {depth : Nat} (within : Within depth text) : Within (3 * depth) regex.render := by
  rw [render_eq]
  exact (reads_of_parse parsed).1.printedWithin within

theorem parse_render_of_within {text : List Char} {regex : Regex}
    (parsed : parse text = .ok regex) (within : Within 85 text) :
    parse regex.render = .ok regex := by
  apply (parse_render_iff_shallow parsed).mpr
  exact (render_within parsed within).mono (by decide)

/-- What is printed of a tree that was read stands for that tree and for no other. It is read back
    if, and only if, it keeps the limit on open groups, as it does where the text that was read had
    at most 85 groups open at any place. -/
theorem parse_render_iff (text : List Char) (regex : Regex) (parsed : parse text = .ok regex) :
    Derives .expression regex.render regex ∧
    (∀ other, parse regex.render = .ok other → other = regex) ∧
    (parse regex.render = .ok regex ↔
      ∀ front, front <+: regex.render → openGroups front ≤ 256) ∧
    ((∀ front, front <+: text → openGroups front ≤ 85) → parse regex.render = .ok regex) := by
  refine ⟨derives_render parsed, ?_, parse_render_iff_shallow parsed,
    parse_render_of_within parsed⟩
  intro other again
  have same := (parse_render_iff_shallow parsed).mpr (reads_of_parse again).2
  exact Except.ok.inj (again.symm.trans same)

theorem parse_render_iff_repeated_union :
    parse "c(a|b)+".toList = .ok (concat (char 'c') (plus (union (char 'a') (char 'b')))) ∧
    parse "c((a|b)((a|b))*)".toList =
      .ok (concat (char 'c') (plus (union (char 'a') (char 'b')))) := by
  have parsed : parse "c(a|b)+".toList =
      .ok (concat (char 'c') (plus (union (char 'a') (char 'b')))) := by decide +kernel
  refine ⟨parsed, (parse_render_iff _ _ parsed).2.2.2 ?_⟩
  intro front inside
  calc openGroups front ≤ front.count '(' := Nat.sub_le _ _
    _ ≤ front.length := List.count_le_length
    _ ≤ "c(a|b)+".toList.length := inside.length_le
    _ ≤ 85 := by decide

/-- Unions repeated at will, each an alternative of the next. -/
def starred : Nat → List Char
  | 0 => ['a']
  | depth + 1 => '(' :: starred depth ++ ['|', 'b', ')', '*']

def starredTree : Nat → Regex
  | 0 => char 'a'
  | depth + 1 => star (union (starredTree depth) (char 'b'))

/-- Each of these unions is printed in two groups, which are too many for 129 of them. -/
theorem parse_render_starred :
    parse (starred 129) = .ok (starredTree 129) ∧
      parse (starredTree 129).render = .error ⟨256, some '(', .letter⟩ :=
  ⟨by decide +kernel, by decide +kernel⟩

/-! ### The deepest texts that are read back -/

/-- Unions repeated at least once, each an operand in an alternative of the next. -/
def repeated : Nat → List Char
  | 0 => ['a']
  | depth + 1 => 'c' :: '(' :: repeated depth ++ ['|', 'b', ')', '+']

def repeatedTree : Nat → Regex
  | 0 => char 'a'
  | depth + 1 => concat (char 'c') (plus (union (repeatedTree depth) (char 'b')))

private theorem derives_repeated (depth : Nat) :
    Derives .expression (repeated depth) (repeatedTree depth) := by
  induction depth with
  | zero => exact .one (.letter (by decide) (by decide))
  | succ depth ih =>
    have b : Derives .expression ['b'] (char 'b') := .one (.letter (by decide) (by decide))
    have c : Derives .expression ['c'] (char 'c') := .one (.letter (by decide) (by decide))
    simpa [repeated, repeatedTree] using c.more (.group (ih.both b) .plus)

private theorem within_repeated (depth : Nat) : Within depth (repeated depth) := by
  induction depth with
  | zero => exact within_plain (by decide) 0
  | succ depth ih =>
    have nested := (derives_repeated depth).nested
    have bar : Nested ['|', 'b'] := nested_plain (by decide) (by decide)
    have inside : Within depth (repeated depth ++ ['|', 'b']) :=
      (within_append_iff nested _).mpr ⟨ih, within_plain (by decide) depth⟩
    have group : Within (depth + 1) ('(' :: (repeated depth ++ ['|', 'b']) ++ [')', '+']) :=
      inside.suffixed (nested.append bar) (by decide)
    have letter : Nested ['c'] := nested_plain (by decide) (by decide)
    have whole := (within_append_iff letter _).mpr ⟨within_plain (by decide) (depth + 1), group⟩
    simpa [repeated] using whole

/-- Somewhere in what is printed of them three groups are open for each. -/
private theorem deep_repeated (depth : Nat) : ∃ front, front <+: (repeatedTree depth).written ∧
    front.count '(' = front.count ')' + 3 * depth := by
  induction depth with
  | zero => exact ⟨[], List.nil_prefix, rfl⟩
  | succ depth ih =>
    obtain ⟨front, ⟨rest, split⟩, deep⟩ := ih
    have spelled := (derives_repeated depth).spelled
    have balanced := spelled.nested.balanced
    refine ⟨'c' :: '(' :: '(' :: (repeatedTree depth).written ++ ['|', 'b', ')', '(', '('] ++ front,
      ⟨rest ++ ['|', 'b', ')', ')', '*', ')'], ?_⟩, ?_⟩
    · simp [repeatedTree, plus, written, isConcat, spelled.isEpsilon, ← split]
    · simp only [List.cons_append, List.append_assoc, List.nil_append, List.count_append,
        List.count_cons_self, List.count_cons_of_ne, ne_eq, Char.reduceEq, not_false_eq_true,
        balanced, deep]
      omega

/-- The law holds of all texts with at most so many open groups exactly as long as there are no more
    than 85. -/
theorem parse_render_within_iff (depth : Nat) :
    (∀ text regex, parse text = .ok regex → Within depth text →
      parse regex.render = .ok regex) ↔ depth ≤ 85 := by
  constructor
  · intro law
    by_contra more
    have reads : Reads (repeated 86) (repeatedTree 86) :=
      ⟨derives_repeated 86, (within_repeated 86).mono (by decide)⟩
    have again := law _ _ reads.parse_eq ((within_repeated 86).mono (by omega))
    obtain ⟨front, inside, deep⟩ := deep_repeated 86
    have shallow := (reads_of_parse again).2 front (render_eq _ ▸ inside)
    rw [openGroups, maxDepth] at shallow
    omega
  · intro few text regex parsed within
    exact parse_render_of_within parsed (within.mono few)

end CommonWord.Regex
