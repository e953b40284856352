import Std.Data.TreeMap

/-!
Breadth-first exploration of a graph with labelled edges, which numbers the keys it meets.

Keys are numbered in the order in which they are discovered, and expanded in the same order. With
the edges of every key in ascending order of their labels, that is the shortlex order of the least
words that lead to them.
-/

namespace CommonWord

/-- What an exploration numbers: a set of states in ascending order, or a tuple of states. -/
abbrev Key := List Nat

/-- The lexicographic order of keys. -/
def compareKeys : Key → Key → Ordering := List.compareLex compare

instance : Std.TransCmp compareKeys := inferInstanceAs (Std.TransCmp (List.compareLex compare))

instance : Std.LawfulEqCmp compareKeys :=
  inferInstanceAs (Std.LawfulEqCmp (List.compareLex compare))

/-- A graph with a start, given by the labelled edges out of each key. -/
structure Graph where
  start : Key
  /-- The edges out of a key, each with its label and its target. -/
  next : Key → List (Char × Key)

namespace Graph

/-- The target of the edge with this label. -/
def step? (graph : Graph) (key : Key) (label : Char) : Option Key := (graph.next key).lookup label

/-- The key at which a word ends that begins at this one. -/
def walk? (graph : Graph) (key : Key) (word : List Char) : Option Key :=
  word.foldlM graph.step? key

end Graph

/-- A key together with the labels on the way to it, the last one first. -/
structure Discovery where
  key : Key
  trail : List Char
deriving DecidableEq

/-- The word that leads to a key. -/
def Discovery.word (discovery : Discovery) : List Char := discovery.trail.reverse

/-- What is known of a graph at some point of its exploration. -/
structure Exploration where
  /-- The keys met so far, each numbered by its place. -/
  found : Array Discovery
  /-- The number of each key met so far. -/
  index : Std.TreeMap Key Nat compareKeys
  /-- The edges out of the keys expanded so far, which are the first ones found. -/
  edges : Array (List (Char × Nat))

namespace Exploration

def empty : Exploration := ⟨#[], ∅, #[]⟩

/-- The number of a key, which is a new one if the key was not met before. -/
def visit (exploration : Exploration) (key : Key) (trail : List Char) : Nat × Exploration :=
  match exploration.index[key]? with
  | some number => (number, exploration)
  | none =>
    let ⟨found, index, edges⟩ := exploration
    (found.size, ⟨found.push ⟨key, trail⟩, index.insert key found.size, edges⟩)

/-- Visits the start of a graph first. -/
def enter (graph : Graph) : Nat × Exploration := empty.visit graph.start []

/-- Only the start was met. -/
def initial (graph : Graph) : Exploration := (enter graph).2

/-- Visits the targets of the edges out of a key in turn and gives the edges by number. -/
def visitAll (trail : List Char) :
    List (Char × Key) → Exploration → List (Char × Nat) × Exploration
  | [], exploration => ([], exploration)
  | (label, key) :: rest, exploration =>
    let (number, exploration) := exploration.visit key (label :: trail)
    let (edges, exploration) := visitAll trail rest exploration
    ((label, number) :: edges, exploration)

/-- Expands the first key that was not expanded yet. -/
def expand (graph : Graph) (discovery : Discovery) (exploration : Exploration) : Exploration :=
  let (row, ⟨found, index, edges⟩) :=
    visitAll discovery.trail (graph.next discovery.key) exploration
  ⟨found, index, edges.push row⟩

/-- The first key that was not expanded yet. -/
def pending? (exploration : Exploration) : Option Discovery :=
  exploration.found[exploration.edges.size]?

/-- Expands keys in the order of their discovery until a goal comes next, no key is left or the
    bound on the number of expansions is reached. -/
def run (graph : Graph) (goal : Key → Bool) : Nat → Exploration → Exploration
  | 0, exploration => exploration
  | bound + 1, exploration =>
    match exploration.pending? with
    | none => exploration
    | some discovery =>
      if goal discovery.key then exploration
      else run graph goal bound (exploration.expand graph discovery)

end Exploration

/-- The exploration of a graph from its start up to a goal, with a bound on the number of keys. -/
def Graph.explore (graph : Graph) (goal : Key → Bool) (bound : Nat) : Exploration :=
  Exploration.run graph goal bound (.initial graph)

end CommonWord
