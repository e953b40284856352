import CommonWord.Dfa.Basic
import CommonWord.Exploration
import CommonWord.Nfa.Basic

/-!
The subset construction: a deterministic automaton whose states are the sets of states in which a
nondeterministic one can be, numbered in the order in which an exploration from the start meets
them.
-/

namespace CommonWord

/-- The graph of the closed sets of states, with an edge for each label that leaves a set. -/
def Nfa.subsets (nfa : Nfa) : Graph where
  start := nfa.initial
  next states := (nfa.labels states).map fun label => (label, nfa.advance states label)

/-- The exploration of all closed sets that a run can be in, of which there are at most as many as
    sets of states. -/
def Nfa.explore (nfa : Nfa) : Exploration :=
  nfa.subsets.explore (fun _ => false) (Nat.pow 2 nfa.size)

namespace Dfa

/-- The automaton with the explored sets for its states, of which it starts in the one of this
    number. -/
def ofExploration (nfa : Nfa) (start : Nat) (exploration : Exploration) : Dfa where
  start
  states := Array.zipWith
    (fun discovery edges => ⟨discovery.key.any nfa.accepting, edges, discovery.key⟩)
    exploration.found exploration.edges

/-- The deterministic automaton that runs like a nondeterministic one. -/
def ofNfa (nfa : Nfa) : Dfa := ofExploration nfa (Exploration.enter nfa.subsets).1 nfa.explore

end Dfa

end CommonWord
