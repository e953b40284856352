import CommonWord.Regex.Basic
import CommonWord.Regex.SyntaxError

/-!
The grammar of regular expressions, as derivations of a tree from a text.

An expression is a sequence of terms. A term is a letter, or a group with a suffix or without one.
Inside a group stands one expression, or two with a bar between them. How deep groups may nest is
said of the text alone.
-/

namespace CommonWord.Regex

/-- What a derivation can be of. -/
inductive Phrase where
  /-- A sequence of terms. -/
  | expression
  | term
  /-- The inside of a group. -/
  | content
deriving DecidableEq

/-- The operations that stand after a group. -/
inductive Suffix : List Char → (Regex → Regex) → Prop where
  | none : Suffix [] id
  | star : Suffix ['*'] star
  | plus : Suffix ['+'] plus
  | optional : Suffix ['?'] optional

/-- A text is a phrase of this kind that stands for this tree. -/
inductive Derives : Phrase → List Char → Regex → Prop where
  | letter {c : Char} (low : 'a' ≤ c) (high : c ≤ 'z') : Derives .term [c] (char c)
  | group {inside suffix : List Char} {inner : Regex} {wrap : Regex → Regex}
      (content : Derives .content inside inner) (suffixed : Suffix suffix wrap) :
      Derives .term ('(' :: inside ++ ')' :: suffix) (wrap inner)
  | single {text : List Char} {regex : Regex} (only : Derives .expression text regex) :
      Derives .content text regex
  | both {left right : List Char} {first second : Regex}
      (before : Derives .expression left first) (after : Derives .expression right second) :
      Derives .content (left ++ '|' :: right) (union first second)
  | one {text : List Char} {regex : Regex} (only : Derives .term text regex) :
      Derives .expression text regex
  | more {front last : List Char} {chain next : Regex}
      (before : Derives .expression front chain) (after : Derives .term last next) :
      Derives .expression (front ++ last) (concat chain next)

/-- The number of groups that are open at the end of a text. -/
def openGroups (text : List Char) : Nat := text.count '(' - text.count ')'

/-- At no place of a text are too many groups open. -/
def Shallow (text : List Char) : Prop := ∀ front, front <+: text → openGroups front ≤ maxDepth

/-- A whole text stands for a tree. -/
def Reads (text : List Char) (regex : Regex) : Prop :=
  Derives .expression text regex ∧ Shallow text

end CommonWord.Regex
