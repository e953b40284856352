import CommonWord.Regex.Basic
import CommonWord.Regex.SyntaxError

/-!
Reading a regular expression from its text, one character at a time.

The reader keeps the groups that are open and, in each, what was read of it. Every state of the
reader can still be completed to an expression, so the first character it refuses is the first one
at which the text cannot go on.
-/

namespace CommonWord

namespace Regex

/-- What was read of one group, or of the text outside all groups. -/
structure Level where
  /-- The alternative before the bar, once a bar was read. -/
  before : Option Regex
  /-- The terms read since, concatenated. -/
  chain : Option Regex
deriving DecidableEq

namespace Level

def empty : Level := ⟨none, none⟩

/-- One more term at the end of the chain. -/
def push (level : Level) (term : Regex) : Level :=
  match level.chain with
  | none => { level with chain := some term }
  | some chain => { level with chain := some (concat chain term) }

/-- The expression that the level amounts to, unless a term is still missing. -/
def value? (level : Level) : Option Regex :=
  match level.before, level.chain with
  | none, chain => chain
  | some _, none => none
  | some first, some second => some (union first second)

end Level

/-- A text read up to some place. -/
structure Reader where
  /-- The open groups around the innermost one, from the inside out. -/
  enclosing : List Level
  /-- The innermost open group, or the text outside all groups. -/
  current : Level
  /-- The group just closed, to which a suffix may still apply. -/
  group : Option Regex
deriving DecidableEq

/-- The operation that a suffix stands for. -/
def suffix? (c : Char) : Option (Regex → Regex) :=
  if c = '*' then some star
  else if c = '+' then some plus
  else if c = '?' then some optional
  else none

namespace Reader

def initial : Reader := ⟨[], .empty, none⟩

/-- The reader for which a group just closed is a term without suffix. -/
def settle (reader : Reader) : Reader :=
  match reader.group with
  | none => reader
  | some group => { reader with current := reader.current.push group, group := none }

/-- What should stand at a place where reading stops. -/
def expected (reader : Reader) : Expected :=
  if reader.current.chain.isNone then .term
  else if reader.enclosing.isEmpty then .termOrEnd
  else .closeParen

/-- Reads a character that is no suffix. -/
def read (reader : Reader) (c : Char) : Except Expected Reader :=
  if c.isLower then
    .ok { reader with current := reader.current.push (char c) }
  else if c = '(' then
    if maxDepth ≤ reader.enclosing.length then .error .letter
    else .ok ⟨reader.current :: reader.enclosing, .empty, none⟩
  else if c = ')' then
    match reader.enclosing, reader.current.value? with
    | outer :: outers, some inner => .ok ⟨outers, outer, some inner⟩
    | _, _ => .error reader.expected
  else if c = '|' then
    match reader.enclosing, reader.current with
    | _ :: _, ⟨none, some first⟩ => .ok { reader with current := ⟨some first, none⟩ }
    | _, _ => .error reader.expected
  else .error reader.expected

/-- Reads one character: a suffix right after a group, or else what follows the group. -/
def step (reader : Reader) (c : Char) : Except Expected Reader :=
  match reader.group, suffix? c with
  | some group, some wrap => .ok ⟨reader.enclosing, reader.current.push (wrap group), none⟩
  | _, _ => reader.settle.read c

/-- The expression read, if the text may end here. -/
def finish (reader : Reader) : Except Expected Regex :=
  let settled := reader.settle
  match settled.enclosing, settled.current.value? with
  | [], some regex => .ok regex
  | _, _ => .error settled.expected

/-- Reads the rest of a text of which so many characters were read. -/
def run : List Char → Nat → Reader → Except SyntaxError Regex
  | [], position, reader =>
    match reader.finish with
    | .ok regex => .ok regex
    | .error expected => .error ⟨position, none, expected⟩
  | c :: rest, position, reader =>
    match reader.step c with
    | .ok next => run rest (position + 1) next
    | .error expected => .error ⟨position, some c, expected⟩

end Reader

/-- The expression that the whole text stands for. -/
def parse (text : List Char) : Except SyntaxError Regex := Reader.run text 0 .initial

end Regex

end CommonWord
