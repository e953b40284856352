import CommonWord.Dfa.Basic

/-!
Walking over a deterministic automaton by hand, one instruction at a time.
-/

namespace CommonWord.Dfa

/-- What a walker is told to do. -/
inductive Instruction where
  /-- To follow the edge with this label. -/
  | follow (label : Char)
  /-- To go back to the start. -/
  | reset
  /-- To go to the state of this number. -/
  | goto (state : Nat)
deriving DecidableEq

/-- Where an instruction leads, if it can be carried out. -/
def moveTo? (dfa : Dfa) (state : Nat) : Instruction → Option Nat
  | .follow label => dfa.step? state label
  | .reset => some dfa.start
  | .goto target => if target < dfa.size then some target else none

/-- The state after each instruction, and whether the instruction could be carried out; a walker
    who cannot carry one out stays. -/
def tour (dfa : Dfa) (state : Nat) : List Instruction → List (Nat × Bool)
  | [] => []
  | instruction :: rest =>
    let target? := dfa.moveTo? state instruction
    let target := target?.getD state
    (target, target?.isSome) :: dfa.tour target rest

end CommonWord.Dfa
