/-!
The lines of a text. A line feed ends a line, together with one carriage return right before it,
and the text after the last line feed is a line unless it is empty.
-/

namespace CommonWord.Text

/-- A line given in reverse without one carriage return at its end. -/
def dropReturn : List Char → List Char
  | '\r' :: before => before
  | line => line

/-- The lines of a text that goes on a line of which this much was read, in reverse. -/
def linesAfter (read : List Char) : List Char → List (List Char)
  | [] => if read.isEmpty then [] else [read.reverse]
  | c :: rest =>
    if c = '\n' then (dropReturn read).reverse :: linesAfter [] rest
    else linesAfter (c :: read) rest

def lines (text : List Char) : List (List Char) := linesAfter [] text

end CommonWord.Text
