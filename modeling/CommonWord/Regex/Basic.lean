/-!
Regular expressions over single characters, and the chain of concatenations at the root of one.

A text read from left to right gives a chain that leans to the left and is as long as the text, so
every walk below goes down the left operand last and keeps what is to the right in an accumulator.
-/

namespace CommonWord

/-- A regular expression, for which `+` and `?` are the abbreviations `plus` and `optional`. -/
inductive Regex where
  /-- Only the empty word. -/
  | epsilon
  /-- Only the word of this one character. -/
  | char (c : Char)
  /-- A word of the left operand followed by a word of the right one. -/
  | concat (left right : Regex)
  /-- A word of either operand. -/
  | union (left right : Regex)
  /-- Any number of words of the operand, one after the other. -/
  | star (inner : Regex)
deriving Inhabited

namespace Regex

/-- One or more repetitions. -/
def plus (inner : Regex) : Regex := concat inner (star inner)

/-- The empty word or a word of the operand. -/
def optional (inner : Regex) : Regex := union epsilon inner

def isConcat : Regex → Bool
  | concat _ _ => true
  | _ => false

def isEpsilon : Regex → Bool
  | epsilon => true
  | _ => false

/-- Equality of trees, which compares right operands first. -/
protected def beq : Regex → Regex → Bool
  | epsilon, epsilon => true
  | char c, char d => c == d
  | concat l r, concat m s => r.beq s && l.beq m
  | union l r, union m s => r.beq s && l.beq m
  | star x, star y => x.beq y
  | _, _ => false

/-- The test decides equality. -/
protected theorem beq_eq_true_iff (left right : Regex) : left.beq right = true ↔ left = right := by
  induction left generalizing right with
  | epsilon => cases right <;> simp [Regex.beq]
  | char c => cases right <;> simp [Regex.beq]
  | concat l r leftIh rightIh => cases right <;> simp [Regex.beq, leftIh, rightIh, and_comm]
  | union l r leftIh rightIh => cases right <;> simp [Regex.beq, leftIh, rightIh, and_comm]
  | star x ih => cases right <;> simp [Regex.beq, ih]

instance : DecidableEq Regex := fun left right =>
  decidable_of_iff (left.beq right = true) (Regex.beq_eq_true_iff left right)

/-- The concatenation of a head and the operands after it, associated to the left. -/
def chain (head : Regex) (operands : List Regex) : Regex := operands.foldl concat head

/-- The spine of an expression to whose right these operands stand. -/
def spineOnto : Regex → List Regex → Regex × List Regex
  | concat l r, after => l.spineOnto (r :: after)
  | head, after => (head, after)

/-- The leftmost operand of the chain at the root, which is no concatenation, and the operands
    after it in order. -/
def spine (regex : Regex) : Regex × List Regex := regex.spineOnto []

/-- The spine loses nothing of an expression. -/
theorem chain_spineOnto (regex : Regex) (after : List Regex) :
    chain (regex.spineOnto after).1 (regex.spineOnto after).2 = chain regex after := by
  induction regex generalizing after with
  | concat l r leftIh _ => rw [spineOnto, leftIh]; rfl
  | _ => rfl

/-- The head of a spine is no concatenation. -/
theorem isConcat_spineOnto (regex : Regex) (after : List Regex) :
    (regex.spineOnto after).1.isConcat = false := by
  induction regex generalizing after with
  | concat l r leftIh _ => exact leftIh (r :: after)
  | _ => rfl

/-- An expression put together anew, in front of operands that already are. -/
def rebuildOnto : Regex → List Regex → Regex
  | epsilon, after => chain epsilon after
  | char c, after => chain (char c) after
  | concat l r, after => l.rebuildOnto (r.rebuildOnto [] :: after)
  | union l r, after => chain (union (l.rebuildOnto []) (r.rebuildOnto [])) after
  | star x, after => chain (star (x.rebuildOnto [])) after

/-- What is put together anew is what was taken apart. -/
theorem rebuildOnto_eq_chain (regex : Regex) (after : List Regex) :
    regex.rebuildOnto after = chain regex after := by
  induction regex generalizing after with
  | epsilon => rfl
  | char c => rfl
  | concat l r leftIh rightIh => rw [rebuildOnto, leftIh, rightIh]; rfl
  | union l r leftIh rightIh => rw [rebuildOnto, leftIh, rightIh]; rfl
  | star x ih => rw [rebuildOnto, ih]; rfl

/-- The expression put together anew from the spines of it and of all its operands. -/
def rebuild (regex : Regex) : Regex := regex.rebuildOnto []

/-- Whether the empty word belongs to the language. -/
def nullable : Regex → Bool
  | epsilon => true
  | char _ => false
  | concat l r => r.nullable && l.nullable
  | union l r => l.nullable || r.nullable
  | star _ => true

end Regex

end CommonWord
