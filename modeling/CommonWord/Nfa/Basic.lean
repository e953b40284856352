import Std.Data.TreeSet

/-!
Nondeterministic automata whose states are numbered by their place in an array, and how one runs.

A run keeps the list of all states it can be in, closed under empty moves, ascending and without
repetition.
-/

namespace CommonWord

namespace Nfa

/-- A state, with at most one labelled edge out of it. -/
structure State where
  accepting : Bool
  /-- The label and the target of the labelled edge. -/
  edge : Option (Char × Nat)
  /-- The targets of the empty moves, in the order in which they were added. -/
  moves : List Nat
deriving DecidableEq, Inhabited

end Nfa

structure Nfa where
  states : Array Nfa.State
  start : Nat
deriving DecidableEq

namespace Nfa

def size (nfa : Nfa) : Nat := nfa.states.size

def accepting (nfa : Nfa) (state : Nat) : Bool := nfa.states[state]?.any (·.accepting)

def edge? (nfa : Nfa) (state : Nat) : Option (Char × Nat) := nfa.states[state]?.bind (·.edge)

def moves (nfa : Nfa) (state : Nat) : List Nat := (nfa.states[state]?.map (·.moves)).getD []

/-- The number of empty moves out of the states below a bound that were not yet seen. -/
def unseenMoves (nfa : Nfa) (seen : Std.TreeSet Nat) : Nat → Nat
  | 0 => 0
  | state + 1 =>
    nfa.unseenMoves seen state + if state ∈ seen then 0 else (nfa.moves state).length

private theorem unseenMoves_insert_of_le (nfa : Nfa) (seen : Std.TreeSet Nat) (state : Nat) :
    ∀ bound, bound ≤ state →
      nfa.unseenMoves (seen.insert state) bound = nfa.unseenMoves seen bound
  | 0, _ => rfl
  | bound + 1, below => by
    have distinct : state ≠ bound := by omega
    simp [unseenMoves, unseenMoves_insert_of_le nfa seen state bound (by omega),
      Std.TreeSet.mem_insert, distinct]

/-- Seeing a state takes its empty moves off the number of those that are left. -/
theorem unseenMoves_insert (nfa : Nfa) (seen : Std.TreeSet Nat) (state : Nat)
    (unseen : state ∉ seen) : ∀ bound, state < bound →
      nfa.unseenMoves (seen.insert state) bound + (nfa.moves state).length =
        nfa.unseenMoves seen bound
  | bound + 1, below => by
    by_cases last : state = bound
    · subst last
      simp [unseenMoves, unseenMoves_insert_of_le nfa seen state state (Nat.le_refl _),
        Std.TreeSet.mem_insert, unseen]
    · have := unseenMoves_insert nfa seen state unseen bound (by omega)
      simp only [unseenMoves, Std.TreeSet.mem_insert, Nat.compare_eq_eq, last, false_or]
      omega

/-- Follows the empty moves from the pending states and adds what it meets to the states seen,
    unless it meets a number that is no state. -/
def follow (nfa : Nfa) (seen : Std.TreeSet Nat) : List Nat → Option (Std.TreeSet Nat)
  | [] => some seen
  | state :: pending =>
    if state ∈ seen then nfa.follow seen pending
    else if state < nfa.size then nfa.follow (seen.insert state) (nfa.moves state ++ pending)
    else none
termination_by pending => nfa.unseenMoves seen nfa.size + pending.length
decreasing_by
  · simp
  · have := nfa.unseenMoves_insert seen state ‹_› nfa.size ‹_›
    simp only [List.length_append, List.length_cons]
    omega

/-- The states that empty moves lead to from these ones, themselves included, in ascending order,
    unless one of the numbers met is no state. -/
def closure? (nfa : Nfa) (frontier : List Nat) : Option (List Nat) :=
  (nfa.follow ∅ frontier).map (·.toList)

def closure (nfa : Nfa) (frontier : List Nat) : List Nat := (nfa.closure? frontier).getD []

/-- The targets of the edges with this label out of these states. -/
def targets (nfa : Nfa) (states : List Nat) (label : Char) : List Nat :=
  (states.filterMap nfa.edge?).filterMap fun edge => if edge.1 = label then some edge.2 else none

/-- The labels of the edges out of these states, ascending and without repetition. -/
def labels (nfa : Nfa) (states : List Nat) : List Char :=
  (Std.TreeSet.ofList ((states.filterMap nfa.edge?).map (·.1))).toList

/-- The states in which a run begins. -/
def initial (nfa : Nfa) : List Nat := nfa.closure [nfa.start]

/-- The states in which a run can be after one more character. -/
def advance (nfa : Nfa) (states : List Nat) (c : Char) : List Nat :=
  nfa.closure (nfa.targets states c)

/-- Whether a run over the word can end in an accepting state. -/
def accepts (nfa : Nfa) (word : List Char) : Bool :=
  (word.foldl nfa.advance nfa.initial).any nfa.accepting

end Nfa

end CommonWord
