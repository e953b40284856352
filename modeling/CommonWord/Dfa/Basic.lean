/-!
Deterministic automata whose states are numbered by their place in an array, and how one runs.
-/

namespace CommonWord

namespace Dfa

/-- A state, with at most one edge for each character. -/
structure State where
  accepting : Bool
  /-- The labels and targets of the edges, in ascending order of the labels. -/
  edges : List (Char × Nat)
  /-- The states of the nondeterministic automaton that this state stands for, ascending. -/
  members : List Nat
deriving DecidableEq, Inhabited

end Dfa

structure Dfa where
  states : Array Dfa.State
  start : Nat
deriving DecidableEq

namespace Dfa

def size (dfa : Dfa) : Nat := dfa.states.size

def accepting (dfa : Dfa) (state : Nat) : Bool := dfa.states[state]?.any (·.accepting)

def edges (dfa : Dfa) (state : Nat) : List (Char × Nat) :=
  (dfa.states[state]?.map (·.edges)).getD []

/-- The state after one more character, if there is one. -/
def step? (dfa : Dfa) (state : Nat) (c : Char) : Option Nat := (dfa.edges state).lookup c

/-- The state after a word, unless the run falls off before. -/
def walk? (dfa : Dfa) (state : Nat) (word : List Char) : Option Nat := word.foldlM dfa.step? state

/-- Whether the run over the word ends in an accepting state. -/
def accepts (dfa : Dfa) (word : List Char) : Bool :=
  (dfa.walk? dfa.start word).any dfa.accepting

end Dfa

end CommonWord
