import CommonWord.Regex.Basic
import Mathlib.Computability.Language

/-!
The language of a regular expression, built from union, concatenation and Kleene closure alone.
-/

namespace CommonWord.Regex

/-- The words that an expression stands for. -/
def language : Regex → Language Char
  | epsilon => 1
  | char c => {[c]}
  | concat l r => l.language * r.language
  | union l r => l.language + r.language
  | star x => KStar.kstar x.language

end CommonWord.Regex
