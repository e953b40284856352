import CommonWord.CommandLine.Command

/-!
The command line program, on the file system of the machine.
-/

namespace CommonWord

/-- The reason for which the machine refused an operation; the code 21, of either sign, says that
    it met a directory. -/
def FileError.ofMachine : IO.Error → FileError
  | .noFileOrDirectory _ _ _ | .noSuchThing _ _ _ => .notFound
  | .alreadyExists _ _ _ => .alreadyExists
  | .inappropriateType _ code _ => if code = 21 || code = -21 then .isDirectory else .notDirectory
  | error => .other (toString error)

/-- The outcome of an operation of the machine. -/
def FileError.catching {α : Type} (operation : IO α) : IO (Except FileError α) := do
  try
    return .ok (← operation)
  catch error =>
    return .error (.ofMachine error)

instance : FileSystem IO where
  readFile path := do
    match ← FileError.catching (IO.FS.readBinFile (String.ofList path)) with
    | .error error => return .error error
    | .ok content =>
      match String.fromUTF8? content with
      | some text => return .ok text.toList
      | none => return .error .notText
  isDirectory path := do
    match ← FileError.catching (IO.FS.realPath (String.ofList path)) with
    | .ok place => place.isDir
    | .error _ => return false
  createDirectory path := FileError.catching (IO.FS.createDir (String.ofList path))
  writeFile path text :=
    FileError.catching (IO.FS.writeFile (String.ofList path) (String.ofList text))

end CommonWord

def main (arguments : List String) : IO UInt32 := do
  let report ← CommonWord.Command.run (arguments.map String.toList)
  IO.print report.output
  IO.eprint report.errors
  return report.code.toUInt32
