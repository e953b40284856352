import CommonWord.Proofs.Fragments
import Mathlib.Logic.Relation

/-!
The closure of a frontier is what empty moves reach from it, in whatever order they are followed.

It is refused exactly where the frontier names a number that is no state. Otherwise it ends, however
many cycles the empty moves make, since every state is expanded once.
-/

namespace CommonWord.Nfa

variable {nfa : Nfa}

/-- Empty moves lead from one state to another, any number of them. -/
def Drifts (nfa : Nfa) : Nat → Nat → Prop :=
  Relation.ReflTransGen fun source target => target ∈ nfa.moves source

private theorem path_nil_iff {source target : Nat} :
    nfa.Path source [] target ↔ nfa.Drifts source target := by
  constructor
  · intro path
    refine path.mem_of_closed rfl (nfa.Drifts source) .refl ?_
    exact fun _ before _ step => before.tail step
  · intro drifts
    induction drifts with
    | refl => exact .stay source
    | @tail middle next _ step before => exact before.append (.move step (.stay next))

/-- All of a frontier are states, and these are the states that empty moves lead to from it, in
    ascending order. -/
structure Closes (nfa : Nfa) (frontier closed : List Nat) : Prop where
  inside : ∀ state, state ∈ frontier → state < nfa.size
  ascending : closed.Pairwise (· < ·)
  mem_iff : ∀ state, state ∈ closed ↔ ∃ source, source ∈ frontier ∧ nfa.Drifts source state

/-- Follows the empty moves like `follow`, but in a queue: what a state leads to is put behind all
    that is pending, and not in front of it. -/
def followInTurn (nfa : Nfa) (seen : Std.TreeSet Nat) : List Nat → Option (Std.TreeSet Nat)
  | [] => some seen
  | state :: pending =>
    if state ∈ seen then nfa.followInTurn seen pending
    else if state < nfa.size then nfa.followInTurn (seen.insert state) (pending ++ nfa.moves state)
    else none
termination_by pending => nfa.unseenMoves seen nfa.size + pending.length
decreasing_by
  · simp
  · have := nfa.unseenMoves_insert seen state ‹_› nfa.size ‹_›
    simp only [List.length_append, List.length_cons]
    omega

private theorem follows_followInTurn (wellFormed : nfa.WellFormed) (seen : Std.TreeSet Nat)
    (pending : List Nat) (known : nfa.Known seen) (frontier : nfa.Frontier seen pending) :
    nfa.Follows seen pending (nfa.followInTurn seen pending) := by
  fun_induction followInTurn nfa seen pending with
  | case1 seen => exact follows_nil nfa seen
  | case2 seen first pending old ih =>
    exact (ih known (frontier.skip old)).skip known frontier old
  | case3 seen first pending new inside ih =>
    have places : ∀ state, state ∈ pending ++ nfa.moves first ↔
        state ∈ nfa.moves first ∨ state ∈ pending := fun _ => List.mem_append.trans or_comm
    exact (ih (known.insert inside) (frontier.insert places)).insert wellFormed inside places
  | case4 seen first pending new outside => exact follows_outside (Nat.le_of_not_lt outside)

/-- Whatever follows a frontier finds its closure. -/
private theorem Follows.map_toList_eq_some_iff {frontier : List Nat}
    {outcome : Option (Std.TreeSet Nat)}
    (follows : nfa.Follows ∅ frontier outcome) (closed : List Nat) :
    outcome.map (·.toList) = some closed ↔ nfa.Closes frontier closed := by
  have ascending : ∀ result : Std.TreeSet Nat, result.toList.Pairwise (· < ·) := fun result => by
    simpa only [Nat.compare_eq_lt] using result.ordered_toList
  constructor
  · intro found
    obtain ⟨result, done, rfl⟩ := Option.map_eq_some_iff.mp found
    refine ⟨fun state member => ?_, ascending result, fun state => ?_⟩
    · by_contra outside
      rw [follows.none_iff.mpr ⟨state, member, Nat.le_of_not_lt outside⟩] at done
      contradiction
    · simp only [← path_nil_iff]
      simpa using follows.mem_iff result done state
  · intro closes
    cases done : outcome with
    | none =>
      obtain ⟨state, member, outside⟩ := follows.none_iff.mp done
      have := closes.inside state member
      omega
    | some result =>
      refine congrArg some ((ascending result).eq_of_mem_iff closes.ascending fun state => ?_)
      simp only [closes.mem_iff, ← path_nil_iff]
      simpa using follows.mem_iff result done state

theorem closure?_eq_some_iff (wellFormed : nfa.WellFormed) (frontier closed : List Nat) :
    nfa.closure? frontier = some closed ↔ nfa.Closes frontier closed :=
  (follows_frontier wellFormed frontier).map_toList_eq_some_iff closed

private theorem Closes.of_same_members {frontier other closed : List Nat}
    (closes : nfa.Closes frontier closed) (same : ∀ state, state ∈ frontier ↔ state ∈ other) :
    nfa.Closes other closed := by
  refine ⟨fun state member => closes.inside state ((same state).mpr member), closes.ascending, ?_⟩
  simpa only [same] using closes.mem_iff

/-- A frontier of the automaton of an expression has no closure exactly where one of its numbers is
    no state. Otherwise its closure is the ascending list of the states that empty moves lead to from
    it. It depends only on which states are in the frontier, and neither on their order nor on that
    in which the moves are followed. -/
theorem closure?_exact (regex : Regex) (frontier : List Nat) :
    let nfa := ofRegex regex
    (nfa.closure? frontier = none ↔ ∃ state, state ∈ frontier ∧ nfa.size ≤ state) ∧
    (∀ closed, nfa.closure? frontier = some closed ↔ nfa.Closes frontier closed) ∧
    (∀ other, (∀ state, state ∈ frontier ↔ state ∈ other) →
      nfa.closure? frontier = nfa.closure? other) ∧
    (nfa.followInTurn ∅ frontier).map (·.toList) = nfa.closure? frontier := by
  intro nfa
  have wellFormed : nfa.WellFormed := wellFormed_ofRegex regex
  have exact := closure?_eq_some_iff wellFormed
  refine ⟨?_, exact frontier, ?_, ?_⟩
  · rw [closure?, Option.map_eq_none_iff]
    exact (follows_frontier wellFormed frontier).none_iff
  · intro other same
    ext1 closed
    rw [exact, exact]
    exact ⟨(·.of_same_members same), (·.of_same_members fun state => (same state).symm)⟩
  · have queue := follows_followInTurn wellFormed ∅ frontier (known_empty nfa)
      (frontier_empty nfa frontier)
    ext1 closed
    rw [queue.map_toList_eq_some_iff, exact]

end CommonWord.Nfa
