/-!
Texts as bytes in UTF-8.
-/

namespace CommonWord.Text

def encode (text : List Char) : List UInt8 := (String.ofList text).toUTF8.data.toList

/-- The text of bytes, if they are one. -/
def decode? (bytes : List UInt8) : Option (List Char) :=
  (String.fromUTF8? ⟨bytes.toArray⟩).map (·.toList)

end CommonWord.Text
