import CommonWord.Dfa.Basic
import CommonWord.Nfa.Basic

/-!
Drawings of automata in the language of Graphviz.

A drawing is a list of statements, one to a line. States are circles, double where they accept, and
an arrow from a point leads into the start. A label stands between its quotation marks as it is.
-/

namespace CommonWord

inductive Statement where
  /-- The point that the arrow into the start comes from. -/
  | entry
  /-- The arrow into the start. -/
  | start (target : Nat)
  | state (number : Nat) (accepting : Bool)
  | edge (source target : Nat) (label : Char)
deriving DecidableEq

namespace Statement

def stateName (number : Nat) : List Char := 'q' :: Nat.toDigits 10 number

def render : Statement → List Char
  | .entry => "entry[shape=point]".toList
  | .start target => "entry -> ".toList ++ stateName target
  | .state number accepting =>
    stateName number ++ (if accepting then "[shape=doublecircle]" else "[shape=circle]").toList
  | .edge source target label =>
    stateName source ++ " -> ".toList ++ stateName target ++ " [label=\"".toList ++
      label :: "\"]".toList

end Statement

/-- A directed graph with a name. -/
structure Drawing where
  name : List Char
  statements : List Statement
deriving DecidableEq

namespace Drawing

def line (statement : Statement) : List Char :=
  [' ', ' '] ++ statement.render ++ ['\n']

def render (drawing : Drawing) : List Char :=
  "digraph ".toList ++ drawing.name ++ [' ', '{', '\n'] ++ drawing.statements.flatMap line ++ ['}']

/-- The drawing of an automaton with this start, made of the statements for its states. -/
def ofStates {α : Type} (name : String) (start : Nat) (states : List α)
    (statements : Nat → α → List Statement) : Drawing :=
  ⟨name.toList, .entry :: .start start ::
    states.zipIdx.flatMap fun (state, number) => statements number state⟩

end Drawing

namespace Nfa

def moveLabel : Char := 'ε'

/-- A state, its labelled edge and its empty moves. -/
def State.statements (number : Nat) (state : State) : List Statement :=
  .state number state.accepting ::
    (state.edge.toList.map fun (label, target) => .edge number target label) ++
    state.moves.map fun target => .edge number target moveLabel

def drawing (nfa : Nfa) : Drawing := .ofStates "nfa" nfa.start nfa.states.toList State.statements

end Nfa

namespace Dfa

/-- A state and its edges. -/
def State.statements (number : Nat) (state : State) : List Statement :=
  .state number state.accepting ::
    state.edges.map fun (label, target) => .edge number target label

def drawing (dfa : Dfa) : Drawing := .ofStates "dfa" dfa.start dfa.states.toList State.statements

end Dfa

end CommonWord
