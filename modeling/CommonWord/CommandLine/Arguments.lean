/-!
The arguments of the command line, read from left to right.

The first argument that is wrong decides, and so does a call for help that comes before it. An
option that takes a value takes the next argument, unless that looks like an option itself.
-/

namespace CommonWord

/-- What the arguments ask for. -/
inductive Invocation where
  /-- To explain the arguments. -/
  | help
  /-- Nothing that can be done. -/
  | misuse
  /-- To solve the puzzle of a file, and to draw its automata into a directory if one is given. -/
  | solve (file : List Char) (drawings : Option (List Char))
deriving DecidableEq

namespace Invocation

/-- The file that is read if the arguments name none. -/
def defaultFile : List Char := "regexes.txt".toList

def isOption : List Char → Bool
  | '-' :: _ :: _ => true
  | _ => false

/-- What the arguments ask for in which all options were read. -/
def finish (file drawings : Option (List Char)) : Invocation :=
  .solve (file.getD defaultFile) drawings

/-- Reads the arguments after the end of the options. -/
def readFiles (file drawings : Option (List Char)) : List (List Char) → Invocation
  | [] => finish file drawings
  | argument :: rest =>
    if argument.isEmpty || file.isSome then .misuse
    else readFiles (some argument) drawings rest

/-- Reads arguments, given what the ones before named. -/
def readFrom (file drawings : Option (List Char)) : List (List Char) → Invocation
  | [] => finish file drawings
  | ['-', '-'] :: rest => readFiles file drawings rest
  | ['-', '-', 'h', 'e', 'l', 'p'] :: _ => .help
  | ['-', '-', 'd', 'o', 't'] :: value :: rest =>
    if value.isEmpty || isOption value || drawings.isSome then .misuse
    else readFrom file (some value) rest
  | ('-' :: '-' :: 'd' :: 'o' :: 't' :: '=' :: value) :: rest =>
    if value.isEmpty || drawings.isSome then .misuse
    else readFrom file (some value) rest
  | ('-' :: 'h' :: _) :: _ => .help
  | argument :: rest =>
    if argument.isEmpty || isOption argument || file.isSome then .misuse
    else readFrom (some argument) drawings rest

def read (arguments : List (List Char)) : Invocation := readFrom none none arguments

end Invocation

end CommonWord
