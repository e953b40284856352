/-!
Why a text is no regular expression: where reading stopped, at what, and what should stand there.
-/

namespace CommonWord

namespace Regex

/-- Groups nest at most this deep. -/
def maxDepth : Nat := 256

/-- What may stand at a place of a text. -/
inductive Expected where
  /-- A letter or an opening parenthesis. -/
  | term
  /-- The parenthesis that closes the innermost open group. -/
  | closeParen
  /-- A letter, because one more group would be too deep. -/
  | letter
  /-- Whatever may follow a complete expression outside all groups. -/
  | termOrEnd
deriving DecidableEq, Repr

def Expected.text : Expected → String
  | .term => "a-z or `(`"
  | .closeParen => "`)`"
  | .letter => s!"a-z (groups nest at most {maxDepth} deep)"
  | .termOrEnd => "a-z, `(` or end of input"

/-- The first place at which a text cannot go on. -/
structure SyntaxError where
  /-- The number of characters before the place. -/
  position : Nat
  /-- The character that stands there, if the text does not end before it. -/
  found : Option Char
  /-- What should stand there. -/
  expected : Expected
deriving DecidableEq, Repr

/-- The message that names the place, what was found and what was expected. -/
def SyntaxError.message (error : SyntaxError) : String :=
  let found :=
    match error.found with
    | some c => "`" ++ String.singleton c ++ "`"
    | none => "end of input"
  "unexpected " ++ found ++ " at position " ++ toString error.position ++
    ", expected " ++ error.expected.text

end Regex

end CommonWord
