import CommonWord.Nfa.Basic

/-!
Paths through a nondeterministic automaton, which are what its runs stand for.
-/

namespace CommonWord.Nfa

/-- A path from one state to another spells a word. -/
inductive Path (nfa : Nfa) : Nat → List Char → Nat → Prop where
  | stay (state : Nat) : Path nfa state [] state
  | move {source middle target : Nat} {word : List Char} (step : middle ∈ nfa.moves source)
      (rest : Path nfa middle word target) : Path nfa source word target
  | edge {source middle target : Nat} {c : Char} {word : List Char}
      (step : nfa.edge? source = some (c, middle)) (rest : Path nfa middle word target) :
      Path nfa source (c :: word) target

/-- A state can be reached from the start by a word. -/
def Reaches (nfa : Nfa) (word : List Char) (state : Nat) : Prop := nfa.Path nfa.start word state

end CommonWord.Nfa
