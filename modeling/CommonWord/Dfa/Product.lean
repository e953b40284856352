import CommonWord.Dfa.Basic
import CommonWord.Exploration

/-!
The search for the shortlex-least word that several deterministic automata accept.

The automata run side by side in a product whose states are tuples, one component for each
automaton. The search explores the product until it comes to a tuple that all automata accept.
-/

namespace CommonWord

namespace Dfa

/-- The tuple after one more character, if every automaton can take it. -/
def stepAll? : List Dfa → Key → Char → Option Key
  | dfa :: dfas, state :: states, c =>
    match dfa.step? state c with
    | none => none
    | some next => (stepAll? dfas states c).map (next :: ·)
  | _, _, _ => some []

/-- Whether every automaton accepts in its component. -/
def acceptingAll : List Dfa → Key → Bool
  | dfa :: dfas, state :: states => dfa.accepting state && acceptingAll dfas states
  | _, _ => true

/-- The characters that the first automaton can take, ascending, without those that another one
    cannot take. -/
def offered : List Dfa → Key → List Char
  | dfa :: dfas, state :: states =>
    ((dfa.edges state).map (·.1)).filter fun c =>
      (dfas.zip states).all fun (dfa, state) => (dfa.step? state c).isSome
  | _, _ => []

def product (dfas : List Dfa) : Graph where
  start := dfas.map start
  next states := (offered dfas states).filterMap fun c => (stepAll? dfas states c).map (c, ·)

/-- The number of tuples of states. -/
def tuples : List Dfa → Nat
  | [] => 1
  | dfa :: dfas => dfa.size * tuples dfas

/-- The exploration of the product up to a tuple that all automata accept. -/
def exploreProduct (dfas : List Dfa) : Exploration :=
  (product dfas).explore (acceptingAll dfas) (tuples dfas)

structure Outcome where
  /-- The word found. -/
  word : Option (List Char)
  /-- The number of tuples met. -/
  met : Nat
deriving DecidableEq

def search (dfas : List Dfa) : Outcome :=
  let exploration := exploreProduct dfas
  let goal? := exploration.pending?.filter fun discovery => acceptingAll dfas discovery.key
  ⟨goal?.map (·.word), exploration.found.size⟩

/-- The shortlex-least word that all automata accept. -/
def commonWord (dfas : List Dfa) : Option (List Char) := (search dfas).word

end Dfa

end CommonWord
