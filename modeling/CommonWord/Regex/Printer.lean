import CommonWord.Regex.Basic

/-!
The written form of a regular expression, as a rule on trees and as the printer that runs.

The rule appends the forms of the operands, and the printer writes from the right end to the left.
-/

namespace CommonWord

namespace Regex

/-- The written form: an operand of a concatenation stands in parentheses where it is itself a
    concatenation and not the head, and a union with the empty word on its left is written as a
    question mark. -/
def written : Regex → List Char
  | epsilon => []
  | char c => [c]
  | concat l r =>
    l.written ++ if r.isConcat then '(' :: r.written ++ [')'] else r.written
  | union l r =>
    if l.isEpsilon then '(' :: r.written ++ [')', '?']
    else '(' :: l.written ++ '|' :: r.written ++ [')']
  | star x => '(' :: x.written ++ [')', '*']

/-- The written form in front of what is already written. -/
def renderOnto : Regex → List Char → List Char
  | epsilon, after => after
  | char c, after => c :: after
  | concat l r, after =>
    l.renderOnto (if r.isConcat then '(' :: r.renderOnto (')' :: after) else r.renderOnto after)
  | union l r, after =>
    if l.isEpsilon then '(' :: r.renderOnto (')' :: '?' :: after)
    else '(' :: l.renderOnto ('|' :: r.renderOnto (')' :: after))
  | star x, after => '(' :: x.renderOnto (')' :: '*' :: after)

/-- The printer puts the written form in front of the rest. -/
theorem renderOnto_eq (regex : Regex) (after : List Char) :
    regex.renderOnto after = regex.written ++ after := by
  induction regex generalizing after with
  | epsilon => rfl
  | char c => rfl
  | concat l r leftIh rightIh => simp only [renderOnto, written, leftIh]; split <;> simp [rightIh]
  | union l r leftIh rightIh => simp only [renderOnto, written]; split <;> simp [leftIh, rightIh]
  | star x ih => simp [renderOnto, written, ih]

/-- The written form, in one pass from its right end. -/
def render (regex : Regex) : List Char := regex.renderOnto []

/-- The printer follows the rule. -/
theorem render_eq (regex : Regex) : regex.render = regex.written := by
  rw [render, renderOnto_eq, List.append_nil]

end Regex

end CommonWord
