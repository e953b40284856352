import CommonWord.Regex.Basic

/-!
The nodes of a regular expression and the letters at its leaves.
-/

namespace CommonWord.Regex

/-- The nodes of a tree, each with all that is below it. -/
def nodes : Regex → List Regex
  | epsilon => [epsilon]
  | char c => [char c]
  | concat l r => concat l r :: (l.nodes ++ r.nodes)
  | union l r => union l r :: (l.nodes ++ r.nodes)
  | star x => star x :: x.nodes

def isUnion : Regex → Bool
  | union _ _ => true
  | _ => false

def isStar : Regex → Bool
  | star _ => true
  | _ => false

def letter? : Regex → Option Char
  | char c => some c
  | _ => none

/-- The characters at the leaves from left to right. -/
def letters (regex : Regex) : List Char := regex.nodes.filterMap letter?

section

variable (left right inner : Regex) (c : Char)

@[simp] theorem letters_epsilon : epsilon.letters = [] := rfl

@[simp] theorem letters_char : (char c).letters = [c] := rfl

@[simp] theorem letters_concat : (concat left right).letters = left.letters ++ right.letters :=
  List.filterMap_append ..

@[simp] theorem letters_union : (union left right).letters = left.letters ++ right.letters :=
  List.filterMap_append ..

@[simp] theorem letters_star : (star inner).letters = inner.letters := rfl

end

end CommonWord.Regex
