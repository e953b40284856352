import CommonWord.Nfa.Basic
import CommonWord.Regex.Basic

/-!
Thompson's construction of an automaton from a regular expression.

Each subexpression gives a fragment, a block of states at the end of an arena that all fragments
share. The construction is stated as one rule for each constructor, and runs along the spine of an
expression with the operands that are still to be built in a list.
-/

namespace CommonWord

namespace Nfa

/-- The states built so far, each numbered by its place. -/
abbrev Arena := Array State

/-- An arena together with the automaton of one subexpression inside it. -/
structure Fragment where
  arena : Arena
  start : Nat
  /-- The accepting states of the automaton. -/
  accepts : List Nat
deriving DecidableEq

namespace Fragment

/-- Takes acceptance from these states and gives each an empty move to the target instead. -/
def redirect (accepts : List Nat) (target : Nat) (arena : Arena) : Arena :=
  accepts.foldl (fun arena state =>
    arena.modify state fun s => { s with accepting := false, moves := s.moves ++ [target] }) arena

/-- One state, which starts and accepts. -/
def ofEpsilon (arena : Arena) : Fragment :=
  let own := arena.size
  ⟨arena.push ⟨true, none, []⟩, own, [own]⟩

/-- An accepting state, and a start state with an edge into it. -/
def ofChar (c : Char) (arena : Arena) : Fragment :=
  let accept := arena.size
  ⟨(arena.push ⟨true, none, []⟩).push ⟨false, some (c, accept), []⟩, accept + 1, [accept]⟩

/-- Both fragments, and then a start state with an empty move into each. -/
def ofUnion (left right : Arena → Fragment) (arena : Arena) : Fragment :=
  let ⟨arena, leftStart, leftAccepts⟩ := left arena
  let ⟨arena, rightStart, rightAccepts⟩ := right arena
  let own := arena.size
  ⟨arena.push ⟨false, none, [leftStart, rightStart]⟩, own, leftAccepts ++ rightAccepts⟩

/-- The fragment, and then a state that starts and accepts, with an empty move into the fragment
    and one back from each of its accepting states. -/
def ofStar (inner : Arena → Fragment) (arena : Arena) : Fragment :=
  let ⟨arena, innerStart, innerAccepts⟩ := inner arena
  let own := arena.size
  ⟨redirect innerAccepts own (arena.push ⟨true, none, [innerStart]⟩), own, [own]⟩

/-- A fragment followed by the next one, which takes over acceptance. -/
def andThen (first : Fragment) (next : Arena → Fragment) : Fragment :=
  let ⟨arena, start, accepts⟩ := first
  let ⟨arena, nextStart, nextAccepts⟩ := next arena
  ⟨redirect accepts nextStart arena, start, nextAccepts⟩

/-- The fragment of an expression at the end of an arena, by one rule for each constructor. -/
def ofRegex : Regex → Arena → Fragment
  | .epsilon, arena => ofEpsilon arena
  | .char c, arena => ofChar c arena
  | .concat l r, arena => (ofRegex l arena).andThen (ofRegex r)
  | .union l r, arena => ofUnion (ofRegex l) (ofRegex r) arena
  | .star x, arena => ofStar (ofRegex x) arena

/-- A fragment followed by several others in turn. -/
def andThenAll (first : Fragment) : List (Arena → Fragment) → Fragment
  | [] => first
  | next :: rest => (first.andThen next).andThenAll rest

/-- The fragment of an expression followed by those of the operands that stand to its right. -/
def buildOnto : Regex → List (Arena → Fragment) → Arena → Fragment
  | .epsilon, after, arena => (ofEpsilon arena).andThenAll after
  | .char c, after, arena => (ofChar c arena).andThenAll after
  | .concat l r, after, arena => buildOnto l (buildOnto r [] :: after) arena
  | .union l r, after, arena => (ofUnion (buildOnto l []) (buildOnto r []) arena).andThenAll after
  | .star x, after, arena => (ofStar (buildOnto x []) arena).andThenAll after

/-- Building along the spine follows the rules. -/
theorem buildOnto_eq (regex : Regex) (after : List (Arena → Fragment)) (arena : Arena) :
    buildOnto regex after arena = (ofRegex regex arena).andThenAll after := by
  induction regex generalizing after arena with
  | epsilon => rfl
  | char c => rfl
  | concat l r leftIh rightIh =>
    have right : buildOnto r [] = ofRegex r := by funext arena; rw [rightIh]; rfl
    rw [buildOnto, leftIh, right]; rfl
  | union l r leftIh rightIh =>
    have left : buildOnto l [] = ofRegex l := by funext arena; rw [leftIh]; rfl
    have right : buildOnto r [] = ofRegex r := by funext arena; rw [rightIh]; rfl
    rw [buildOnto, left, right]; rfl
  | star x ih =>
    have inner : buildOnto x [] = ofRegex x := by funext arena; rw [ih]; rfl
    rw [buildOnto, inner]; rfl

/-- The fragment of an expression at the end of an arena, built along the spine. -/
def build (regex : Regex) (arena : Arena) : Fragment := buildOnto regex [] arena

/-- The automaton that consists of the whole arena. -/
def nfa (fragment : Fragment) : Nfa := ⟨fragment.arena, fragment.start⟩

end Fragment

def ofRegex (regex : Regex) : Nfa := (Fragment.build regex #[]).nfa

end Nfa

end CommonWord
