import CommonWord.Puzzle
import CommonWord.Regex.Printer

/-!
The transcript of a run: what is recorded, in order, while the puzzle of a text is read and solved.

Each step of a run leaves its records while it is taken: the states of an automaton are told of as
they are met, long before the automaton is complete.
-/

namespace CommonWord

inductive Record where
  /-- A nondeterministic automaton was built, with so many states and accepting ones. -/
  | nfaBuilt (regex : Regex) (states accepts : Nat)
  /-- A state of a deterministic automaton was met for the first time. -/
  | stateMet (number : Nat) (members : List Nat)
  /-- A deterministic automaton was built. -/
  | dfaBuilt (nfaStates dfaStates : Nat)
  /-- A line was compiled to automata of these sizes. -/
  | lineCompiled (line : Nat) (regex : Regex) (nfaStates dfaStates : Nat) (nullable : Bool)
  /-- A word of this length was found after so many tuples were met. -/
  | wordFound (length met : Nat)
  /-- There is no word among all the tuples that were met. -/
  | noWord (met : Nat)
deriving DecidableEq

namespace Record

/-- How important an event is, and in which part of the program it happens. -/
def header : Record → String
  | nfaBuilt _ _ _ => "DEBUG regex_puzzle::nfa"
  | stateMet _ _ => "TRACE regex_puzzle::dfa"
  | dfaBuilt _ _ => "DEBUG regex_puzzle::dfa"
  | lineCompiled _ _ _ _ _ => "INFO regex_puzzle::puzzle"
  | wordFound _ _ => "DEBUG regex_puzzle::matcher"
  | noWord _ => "DEBUG regex_puzzle::matcher"

/-- Numbers between brackets. -/
def numberList (numbers : List Nat) : String :=
  "[" ++ ", ".intercalate (numbers.map toString) ++ "]"

def message : Record → String
  | nfaBuilt regex states accepts =>
    "nfa for " ++ String.ofList regex.render ++ ": " ++ toString states ++ " states, " ++
      toString accepts ++ " accepting"
  | stateMet number members => "dfa state " ++ toString number ++ " = " ++ numberList members
  | dfaBuilt nfaStates dfaStates =>
    "subset construction: " ++ toString nfaStates ++ " nfa states -> " ++ toString dfaStates ++
      " dfa states"
  | lineCompiled line regex nfaStates dfaStates nullable =>
    "line " ++ toString line ++ ": " ++ String.ofList regex.render ++ " -> " ++
      toString nfaStates ++ " nfa / " ++ toString dfaStates ++ " dfa states" ++
      if nullable then ", nullable" else ""
  | wordFound length met =>
    "common string of length " ++ toString length ++ " after " ++ toString met ++
      " product states"
  | noWord met => "no common string, " ++ toString met ++ " product states exhausted"

def render (record : Record) : String := record.header ++ ": " ++ record.message

/-- The record that a search leaves. -/
def ofSearch (outcome : Dfa.Outcome) : Record :=
  match outcome.word with
  | some word => wordFound word.length outcome.met
  | none => noWord outcome.met

end Record

/-- A computation that leaves records of what it does. -/
abbrev Recording := StateM (Array Record)

namespace Recording

def note (record : Record) : Recording Unit := modify (·.push record)

def buildNfa (regex : Regex) : Recording Nfa := do
  let fragment := Nfa.Fragment.build regex #[]
  note (.nfaBuilt regex fragment.arena.size fragment.accepts.length)
  return fragment.nfa

/-- Visits a key, and tells of it if it is a new one. -/
def visit (exploration : Exploration) (key : Key) (trail : List Char) :
    Recording (Nat × Exploration) := do
  match exploration.index[key]? with
  | some number => return (number, exploration)
  | none =>
    let met := exploration.visit key trail
    note (.stateMet met.1 key)
    return met

/-- Visits the targets of the edges out of a key in turn. -/
def visitAll (trail : List Char) :
    List (Char × Key) → Exploration → Recording (List (Char × Nat) × Exploration)
  | [], exploration => return ([], exploration)
  | (label, key) :: rest, exploration => do
    let (number, exploration) ← visit exploration key (label :: trail)
    let (edges, exploration) ← visitAll trail rest exploration
    return ((label, number) :: edges, exploration)

def expand (graph : Graph) (discovery : Discovery) (exploration : Exploration) :
    Recording Exploration := do
  let (row, ⟨found, index, edges⟩) ←
    visitAll discovery.trail (graph.next discovery.key) exploration
  return ⟨found, index, edges.push row⟩

/-- Expands keys until none is left or the bound is reached. -/
def expandAll (graph : Graph) : Nat → Exploration → Recording Exploration
  | 0, exploration => return exploration
  | bound + 1, exploration => do
    match exploration.pending? with
    | none => return exploration
    | some discovery => expandAll graph bound (← expand graph discovery exploration)

/-- Builds the deterministic automaton that runs like a nondeterministic one. -/
def buildDfa (nfa : Nfa) : Recording Dfa := do
  let (start, exploration) ← visit .empty nfa.subsets.start []
  let exploration ← expandAll nfa.subsets (Nat.pow 2 nfa.size) exploration
  note (.dfaBuilt nfa.size exploration.found.size)
  return Dfa.ofExploration nfa start exploration

def compile (text : List Char) : Recording (Except Regex.SyntaxError Entry) := do
  match Regex.parse text with
  | .error error => return .error error
  | .ok regex =>
    let nfa ← buildNfa regex
    let dfa ← buildDfa nfa
    return .ok ⟨text, regex, nfa, dfa⟩

def compileLines : List (Nat × List Char) → Recording Puzzle.Reading
  | [] => return ⟨[], none⟩
  | (line, text) :: rest => do
    match ← compile text with
    | .error cause => return ⟨[], some ⟨line, cause⟩⟩
    | .ok entry =>
      note (.lineCompiled line entry.regex entry.nfa.size entry.dfa.size entry.regex.nullable)
      let ⟨compiled, rejected⟩ ← compileLines rest
      return ⟨(line, entry) :: compiled, rejected⟩

def search (dfas : List Dfa) : Recording (Option (List Char)) := do
  let outcome := Dfa.search dfas
  note (.ofSearch outcome)
  return outcome.word

def solve (source : List Char) : Recording (Except PuzzleError (Option (List Char))) := do
  let ⟨compiled, rejected⟩ ← compileLines (Puzzle.numberedLines source)
  match rejected with
  | some error => return .error error
  | none => return .ok (← search (compiled.map (·.2.dfa)))

end Recording

/-- The transcript of reading and solving the puzzle of a text. -/
def Puzzle.transcript (source : List Char) : List Record :=
  ((Recording.solve source).run #[]).2.toList

end CommonWord
