import CommonWord.Proofs.Fragments

/-!
What all states of a fragment have in common.

A state of a fragment is as it was made, or it accepted then and was redirected once, to a state that
comes after it. So what new states have and redirected ones keep holds of all states that are built
for an expression.
-/

namespace CommonWord.Nfa

/-- Every state of an arena has a property, which may depend on its number. -/
def AllStates (property : Nat → State → Prop) (arena : Arena) : Prop :=
  ∀ (number : Nat) (state : State), arena[number]? = some state → property number state

/-- States have a property when they are made, and keep it when they are redirected, which is always
    to a later state. -/
structure Lasting (property : Nat → State → Prop) : Prop where
  accept : ∀ number, property number ⟨true, none, []⟩
  letter : ∀ number c, property (number + 1) ⟨false, some (c, number), []⟩
  union : ∀ number left right, property number ⟨false, none, [left, right]⟩
  star : ∀ number inner, property number ⟨true, none, [inner]⟩
  redirect : ∀ (number : Nat) (state : State) (target : Nat), property number state →
    state.accepting = true → number < target →
    property number { state with accepting := false, moves := state.moves ++ [target] }

section

variable {property : Nat → State → Prop} {arena : Arena}

private theorem AllStates.push (all : AllStates property arena) {new : State}
    (own : property arena.size new) : AllStates property (arena.push new) := by
  intro number state place
  rw [Array.getElem?_push] at place
  split at place
  · next last =>
    obtain rfl := Option.some.inj place
    exact last ▸ own
  · exact all number state place

/-- A state that is redirected gets one move more, and accepted before. -/
private theorem AllStates.redirect (all : AllStates property arena) (lasting : Lasting property)
    {accepts : List Nat} (once : accepts.Nodup)
    (accepting : ∀ state, state ∈ accepts → accepting ⟨arena, 0⟩ state = true) {target : Nat}
    (onward : ∀ state, state ∈ accepts → state < target) :
    AllStates property (Fragment.redirect accepts target arena) := by
  intro number state place
  rw [Fragment.getElem?_redirect] at place
  obtain ⟨old, found, rfl⟩ := Option.map_eq_some_iff.mp place
  have before := all number old found
  by_cases member : number ∈ accepts
  · have accepted : old.accepting = true := by
      simpa [Nfa.accepting, found] using accepting number member
    have count : accepts.count number = 1 := List.count_eq_one_of_mem once member
    simpa [member, count] using
      lasting.redirect number old target before accepted (onward number member)
  · have count : accepts.count number = 0 := List.count_eq_zero.mpr member
    simpa [member, count] using before

end

theorem accepting_iff_exists {nfa : Nfa} {number : Nat} : nfa.accepting number = true ↔
    ∃ state, nfa.states[number]? = some state ∧ state.accepting = true :=
  Option.any_eq_true _ _

/-- What lasts holds of all the states that are built for an expression. -/
theorem Lasting.ofRegex {property : Nat → State → Prop} (lasting : Lasting property)
    (regex : Regex) {arena : Arena} (all : AllStates property arena) :
    AllStates property (Fragment.ofRegex regex arena).arena := by
  induction regex generalizing arena with
  | epsilon => exact all.push (lasting.accept _)
  | char c =>
    exact (all.push (lasting.accept _)).push (by simpa using lasting.letter arena.size c)
  | concat l r leftIh rightIh =>
    have left := Fragment.block_ofRegex l arena
    have right := Fragment.block_ofRegex r (Fragment.ofRegex l arena).arena
    refine (rightIh (leftIh all)).redirect lasting (Fragment.nodup_accepts l arena) ?_
      (left.accepts_lt right.start_mem.1)
    exact fun state member => (left.both right).accepting (List.mem_append_left _ member)
  | union l r leftIh rightIh => exact (rightIh (leftIh all)).push (lasting.union ..)
  | star x ih =>
    have inner := Fragment.block_ofRegex x arena
    refine ((ih all).push (lasting.star ..)).redirect lasting (Fragment.nodup_accepts x arena) ?_
      (inner.accepts_lt (Nat.le_refl _))
    exact fun state => (inner.part.of_alike (alike_push _ _ _ 0 0)).accepting

end CommonWord.Nfa
