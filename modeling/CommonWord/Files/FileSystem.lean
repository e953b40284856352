/-!
What a command needs of a file system, and the ways in which it can fail.
-/

namespace CommonWord

inductive FileError where
  | notFound
  | isDirectory
  | notDirectory
  | alreadyExists
  /-- The bytes of a file are no text in UTF-8. -/
  | notText
  /-- A failure that only a real system knows. -/
  | other (message : String)
deriving DecidableEq

def FileError.message : FileError → String
  | notFound => "No such file or directory (os error 2)"
  | isDirectory => "Is a directory (os error 21)"
  | notDirectory => "Not a directory (os error 20)"
  | alreadyExists => "File exists (os error 17)"
  | notText => "stream did not contain valid UTF-8"
  | other message => message

/-- A file system on which commands run. -/
class FileSystem (m : Type → Type) where
  /-- The text of a file. -/
  readFile : List Char → m (Except FileError (List Char))
  /-- Whether a path leads to a directory. -/
  isDirectory : List Char → m Bool
  /-- Makes one directory inside one that exists. -/
  createDirectory : List Char → m (Except FileError Unit)
  /-- Makes a file of this text, or gives an existing file this text. -/
  writeFile : List Char → List Char → m (Except FileError Unit)

end CommonWord
