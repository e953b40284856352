import CommonWord.Regex.Grammar
import Mathlib.Computability.Language

/-!
The language of a text of the grammar, read off its derivation without a tree.

Juxtaposition is concatenation, a bar is union, and a suffix says how often a word of the group may
stand.
-/

namespace CommonWord.Regex

/-- One word or several, one after the other. -/
def oneOrMore (words : Language Char) : Language Char :=
  {word | ∃ parts : List (List Char), parts ≠ [] ∧ word = parts.flatten ∧
    ∀ part, part ∈ parts → part ∈ words}

/-- No word or one. -/
def zeroOrOne (words : Language Char) : Language Char := {word | word = [] ∨ word ∈ words}

/-- What a suffix makes of the language of the group before it. -/
inductive Repeats : List Char → (Language Char → Language Char) → Prop where
  | once : Repeats [] id
  | zeroOrMore : Repeats ['*'] KStar.kstar
  | oneOrMore : Repeats ['+'] oneOrMore
  | zeroOrOne : Repeats ['?'] zeroOrOne

/-- A text is a phrase of this kind that stands for these words. -/
inductive Means : Phrase → List Char → Language Char → Prop where
  | letter {c : Char} (low : 'a' ≤ c) (high : c ≤ 'z') : Means .term [c] {[c]}
  | group {inside suffix : List Char} {words : Language Char}
      {often : Language Char → Language Char} (content : Means .content inside words)
      (suffixed : Repeats suffix often) :
      Means .term ('(' :: inside ++ ')' :: suffix) (often words)
  | single {text : List Char} {words : Language Char} (only : Means .expression text words) :
      Means .content text words
  | both {left right : List Char} {first second : Language Char}
      (before : Means .expression left first) (after : Means .expression right second) :
      Means .content (left ++ '|' :: right) (first + second)
  | one {text : List Char} {words : Language Char} (only : Means .term text words) :
      Means .expression text words
  | more {front last : List Char} {first second : Language Char}
      (before : Means .expression front first) (after : Means .term last second) :
      Means .expression (front ++ last) (first * second)

/-- A whole text stands for these words. -/
def StandsFor (text : List Char) (words : Language Char) : Prop :=
  Means .expression text words ∧ Shallow text

end CommonWord.Regex
