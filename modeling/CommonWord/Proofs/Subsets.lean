import CommonWord.Dfa.Subset
import CommonWord.Proofs.Explorations
import CommonWord.Proofs.Fragments
import Mathlib.Data.List.Sort
import Mathlib.Data.List.Sublists

/-!
The subset construction simulates the nondeterministic automaton.

Every state of the result stands for the set of all states that the words leading to it reach, so a
walk ends where a run would, and it falls off exactly where a run is left without states.
-/

namespace CommonWord

namespace Nfa

variable {nfa : Nfa}

/-! ### The graph of the sets -/

theorem mem_labels_iff (states : List Nat) (c : Char) :
    c ∈ nfa.labels states ↔ nfa.targets states c ≠ [] := by
  constructor
  · intro member empty
    rw [labels, Std.TreeSet.mem_toList, Std.TreeSet.mem_ofList, List.contains_iff_mem] at member
    obtain ⟨⟨label, target⟩, known, rfl⟩ := List.mem_map.mp member
    obtain ⟨state, inside, edge⟩ := List.mem_filterMap.mp known
    have reached := (mem_targets_iff states label target).mpr ⟨state, inside, edge⟩
    rw [empty] at reached
    contradiction
  · intro some
    obtain ⟨target, reached⟩ := List.exists_mem_of_ne_nil _ some
    obtain ⟨state, inside, edge⟩ := (mem_targets_iff states c target).mp reached
    rw [labels, Std.TreeSet.mem_toList, Std.TreeSet.mem_ofList, List.contains_iff_mem]
    exact List.mem_map.mpr ⟨(c, target), List.mem_filterMap.mpr ⟨state, inside, edge⟩, rfl⟩

private theorem labels_ascending (states : List Nat) : (nfa.labels states).Pairwise (· < ·) := by
  have ascending := (Std.TreeSet.ofList ((states.filterMap nfa.edge?).map (·.1))).ordered_toList
  exact ascending.imp fun less => compare_lt_iff_lt.mp less

theorem subsets_ordered (nfa : Nfa) : nfa.subsets.Ordered := by
  intro states
  show ((nfa.labels states).map _).Pairwise _
  rw [List.pairwise_map]
  exact labels_ascending states

theorem advance_eq_nil_iff (wellFormed : nfa.WellFormed) (states : List Nat) (c : Char) :
    nfa.advance states c = [] ↔ nfa.targets states c = [] := by
  constructor
  · intro empty
    by_contra some
    obtain ⟨target, reached⟩ := List.exists_mem_of_ne_nil _ some
    obtain ⟨state, inside, edge⟩ := (mem_targets_iff states c target).mp reached
    have member := (mem_advance_iff wellFormed states c target).mpr
      ⟨state, target, inside, edge, .stay target⟩
    rw [empty] at member
    contradiction
  · intro empty
    apply List.eq_nil_iff_forall_not_mem.mpr
    intro target member
    obtain ⟨state, next, inside, edge, -⟩ := (mem_advance_iff wellFormed states c target).mp member
    have reached := (mem_targets_iff states c next).mpr ⟨state, inside, edge⟩
    rw [empty] at reached
    contradiction

private theorem subsets_step? (wellFormed : nfa.WellFormed) (states : List Nat) (c : Char) :
    nfa.subsets.step? states c =
      if nfa.advance states c = [] then none else some (nfa.advance states c) := by
  split
  · next empty =>
    cases found : nfa.subsets.step? states c with
    | none => rfl
    | some target =>
      have member := Graph.mem_of_lookup found
      obtain ⟨label, offered, same⟩ := List.mem_map.mp member
      obtain ⟨rfl, -⟩ := Prod.mk.inj same
      exact absurd ((advance_eq_nil_iff wellFormed _ _).mp empty) ((mem_labels_iff _ _).mp offered)
  · next more =>
    apply Graph.lookup_of_mem (subsets_ordered nfa states)
    apply List.mem_map.mpr
    refine ⟨c, (mem_labels_iff states c).mpr ?_, rfl⟩
    intro empty
    exact more ((advance_eq_nil_iff wellFormed states c).mpr empty)

theorem run_ne_nil (wellFormed : nfa.WellFormed) : nfa.run [] ≠ [] := by
  have member := (mem_initial_iff wellFormed nfa.start).mpr (.stay nfa.start)
  exact List.ne_nil_of_mem member

/-- A walk over the sets follows a run until no state is left. -/
theorem subsets_walk?_iff (wellFormed : nfa.WellFormed) (word : List Char) (key : Key) :
    nfa.subsets.walk? nfa.subsets.start word = some key ↔ nfa.run word = key ∧ key ≠ [] := by
  induction word using List.reverseRecOn generalizing key with
  | nil =>
    show some nfa.initial = some key ↔ nfa.initial = key ∧ _
    rw [Option.some_inj]
    constructor
    · rintro rfl
      exact ⟨rfl, run_ne_nil wellFormed⟩
    · exact And.left
  | append_singleton word c ih =>
    rw [Graph.walk?_concat, Option.bind_eq_some_iff, run_concat]
    simp only [ih, subsets_step? wellFormed]
    constructor
    · rintro ⟨middle, ⟨rfl, -⟩, step⟩
      split at step
      · contradiction
      · next more =>
        obtain rfl := Option.some.inj step
        exact ⟨rfl, more⟩
    · rintro ⟨rfl, more⟩
      refine ⟨nfa.run word, ⟨rfl, fun empty => more ?_⟩, if_neg more⟩
      rw [empty, advance_eq_nil_iff wellFormed]
      rfl

/-! ### All sets of states -/

private theorem sublist_range {states : List Nat} {size : Nat} (ascending : states.Pairwise (· < ·))
    (inside : ∀ state, state ∈ states → state < size) : states.Sublist (List.range size) := by
  refine List.sublist_of_subperm_of_pairwise ?_ ascending List.pairwise_lt_range
  apply List.subperm_of_subset
  · exact ascending.imp Nat.ne_of_lt
  · intro state member
    exact List.mem_range.mpr (inside state member)

private theorem subsets_universe (wellFormed : nfa.WellFormed) :
    Exploration.Universe nfa.subsets (List.range nfa.size).sublists := by
  have closure : ∀ frontier : List Nat, (∀ state, state ∈ frontier → state < nfa.size) →
      nfa.closure frontier ∈ (List.range nfa.size).sublists := by
    intro frontier inside
    apply List.mem_sublists.mpr
    apply sublist_range (closure_ascending nfa frontier)
    intro state member
    obtain ⟨source, known, path⟩ := (mem_closure_iff wellFormed inside state).mp member
    exact path.target_lt wellFormed (inside source known)
  constructor
  · apply closure
    intro state member
    obtain rfl := List.mem_singleton.mp member
    exact wellFormed.start_lt
  · intro states _ edge member
    obtain ⟨label, -, rfl⟩ := List.mem_map.mp member
    apply closure
    intro target reached
    obtain ⟨state, -, known⟩ := (mem_targets_iff states label target).mp reached
    exact wellFormed.edge_lt state label target known

/-- The exploration of the sets ends only when all of them were expanded. -/
theorem explore_spec (wellFormed : nfa.WellFormed) :
    nfa.explore.Invariant nfa.subsets ∧ nfa.explore.pending? = none := by
  have enough : (List.range nfa.size).sublists.length ≤ Nat.pow 2 nfa.size := by
    rw [List.length_sublists, List.length_range]
    exact Nat.le_refl _
  obtain ⟨invariant, -, ended⟩ :=
    Graph.explore_spec (subsets_ordered nfa) (subsets_universe wellFormed) enough
  refine ⟨invariant, ?_⟩
  cases due : nfa.explore.pending? with
  | none => rfl
  | some discovery => exact absurd (ended discovery due) (by simp)

end Nfa

namespace Dfa

open Exploration

/-- A deterministic automaton is well formed when it has a start, its edges ascend by their labels
    and lead to states of its own. -/
structure WellFormed (dfa : Dfa) : Prop where
  start_lt : dfa.start < dfa.size
  ordered : ∀ state, (dfa.edges state).Pairwise fun first second => first.1 < second.1
  edge_lt : ∀ state edge, edge ∈ dfa.edges state → edge.2 < dfa.size

/-! ### The states of the construction -/

variable {nfa : Nfa}

theorem start_ofNfa (nfa : Nfa) : (ofNfa nfa).start = 0 := enter_fst nfa.subsets

theorem states_ofNfa (wellFormed : nfa.WellFormed) {number : Nat} {discovery : Discovery}
    (met : nfa.explore.found[number]? = some discovery) :
    ∃ row, Row nfa.explore.found discovery.trail (nfa.subsets.next discovery.key) row ∧
      (ofNfa nfa).states[number]? =
        some ⟨discovery.key.any nfa.accepting, row, discovery.key⟩ := by
  obtain ⟨invariant, nothing⟩ := nfa.explore_spec wellFormed
  have inside := (Array.getElem?_eq_some_iff.mp met).1
  have spent := Array.getElem?_eq_none_iff.mp nothing
  obtain ⟨row, known, complete⟩ := invariant.row met (by omega)
  refine ⟨row, complete, ?_⟩
  rw [ofNfa, ofExploration, Array.getElem?_zipWith, met, known]

theorem size_ofNfa (wellFormed : nfa.WellFormed) :
    (ofNfa nfa).size = nfa.explore.found.size := by
  obtain ⟨invariant, nothing⟩ := nfa.explore_spec wellFormed
  have spent := Array.getElem?_eq_none_iff.mp nothing
  have few := invariant.expanded
  simp only [size, ofNfa, ofExploration, Array.size_zipWith]
  omega

theorem members_ofNfa {nfa : Nfa} (wellFormed : nfa.WellFormed) :
    (ofNfa nfa).states.toList.map (·.members) = nfa.explore.found.toList.map (·.key) := by
  apply List.ext_getElem?
  intro number
  simp only [List.getElem?_map, Array.getElem?_toList]
  cases met : nfa.explore.found[number]? with
  | some discovery =>
    obtain ⟨row, -, place⟩ := states_ofNfa wellFormed met
    rw [place]
    rfl
  | none =>
    have outside := Array.getElem?_eq_none_iff.mp met
    rw [← size_ofNfa wellFormed] at outside
    rw [Array.getElem?_eq_none outside]
    rfl

theorem walk?_concat (dfa : Dfa) (state : Nat) (word : List Char) (c : Char) :
    dfa.walk? state (word ++ [c]) = (dfa.walk? state word).bind (dfa.step? · c) := by
  simp [walk?, List.foldlM_append]

theorem edges_ofNfa (wellFormed : nfa.WellFormed) (state : Nat) :
    (ofNfa nfa).edges state = [] ∨ ∃ discovery : Discovery,
      Row nfa.explore.found discovery.trail (nfa.subsets.next discovery.key)
        ((ofNfa nfa).edges state) := by
  cases met : nfa.explore.found[state]? with
  | some discovery =>
    obtain ⟨row, complete, place⟩ := states_ofNfa wellFormed met
    refine .inr ⟨discovery, ?_⟩
    rw [edges, place]
    exact complete
  | none =>
    left
    have outside : (ofNfa nfa).size ≤ state := by
      rw [size_ofNfa wellFormed]
      exact Array.getElem?_eq_none_iff.mp met
    rw [edges, Array.getElem?_eq_none outside]
    rfl

theorem wellFormed_ofNfa (wellFormed : nfa.WellFormed) : (ofNfa nfa).WellFormed := by
  constructor
  · rw [start_ofNfa, size_ofNfa wellFormed]
    exact (Array.getElem?_eq_some_iff.mp (nfa.explore_spec wellFormed).1.start).1
  · intro state
    rcases edges_ofNfa wellFormed state with none | ⟨discovery, complete⟩
    · simp [none]
    · exact complete.ordered (nfa.subsets_ordered discovery.key)
  · intro state edge member
    rcases edges_ofNfa wellFormed state with none | ⟨discovery, complete⟩
    · simp [none] at member
    · rw [size_ofNfa wellFormed]
      exact complete.target_lt edge member

/-! ### The simulation -/

/-- A step leads to the number of the set that the set of the state advances to. -/
theorem step?_ofNfa (wellFormed : nfa.WellFormed) {number : Nat} {discovery : Discovery}
    (met : nfa.explore.found[number]? = some discovery) (c : Char) :
    (nfa.advance discovery.key c = [] ∧ (ofNfa nfa).step? number c = none) ∨
      ∃ next target, nfa.advance discovery.key c ≠ [] ∧
        target.key = nfa.advance discovery.key c ∧ nfa.explore.found[next]? = some target ∧
        (ofNfa nfa).step? number c = some next := by
  obtain ⟨row, complete, place⟩ := states_ofNfa wellFormed met
  have edges : (ofNfa nfa).edges number = row := by rw [Dfa.edges, place]; rfl
  have step := Nfa.subsets_step? wellFormed discovery.key c
  rw [step?, edges]
  rcases complete.lookup c with ⟨none, stuck⟩ | ⟨next, target, taken, known, found, -⟩
  · left
    rw [Graph.step?, none] at step
    refine ⟨?_, stuck⟩
    by_contra more
    rw [if_neg more] at step
    contradiction
  · right
    rw [Graph.step?, known] at step
    split at step
    · contradiction
    · next more => exact ⟨next, target, more, Option.some.inj step, found, taken⟩

/-- A walk comes to the number of the set of the states that a run keeps. -/
theorem walk?_ofNfa (wellFormed : nfa.WellFormed) (word : List Char) :
    (nfa.run word = [] ∧ (ofNfa nfa).walk? (ofNfa nfa).start word = none) ∨
      ∃ number discovery, nfa.run word ≠ [] ∧ discovery.key = nfa.run word ∧
        nfa.explore.found[number]? = some discovery ∧
        (ofNfa nfa).walk? (ofNfa nfa).start word = some number := by
  induction word using List.reverseRecOn with
  | nil =>
    obtain ⟨invariant, -⟩ := nfa.explore_spec wellFormed
    rw [start_ofNfa]
    exact .inr ⟨0, _, Nfa.run_ne_nil wellFormed, rfl, invariant.start, rfl⟩
  | append_singleton word c ih =>
    rw [walk?_concat, Nfa.run_concat]
    rcases ih with ⟨empty, stuck⟩ | ⟨number, discovery, -, same, met, walked⟩
    · left
      rw [Nfa.advance_eq_nil_iff wellFormed, empty, stuck]
      exact ⟨rfl, rfl⟩
    · rw [walked, ← same]
      exact step?_ofNfa wellFormed met c

/-- How a deterministic automaton that walks over a word stands to a nondeterministic one. -/
structure Simulates (dfa : Dfa) (nfa : Nfa) (word : List Char) : Prop where
  /-- It falls off where the word reaches no state. -/
  falls_off : dfa.walk? dfa.start word = none ↔ ∀ state, ¬ nfa.Reaches word state
  /-- Otherwise it ends in a state that stands for exactly the states that the word reaches. -/
  keeps : ∀ number, dfa.walk? dfa.start word = some number →
    ∃ state, dfa.states[number]? = some state ∧ state.members.Pairwise (· < ·) ∧
      (∀ member, member ∈ state.members ↔ nfa.Reaches word member) ∧
      (state.accepting = true ↔
        ∃ member, nfa.Reaches word member ∧ nfa.accepting member = true)
  accepts_eq : dfa.accepts word = nfa.accepts word

theorem simulates_ofNfa (wellFormed : nfa.WellFormed) (word : List Char) :
    Simulates (ofNfa nfa) nfa word := by
  rcases walk?_ofNfa wellFormed word with
    ⟨empty, stuck⟩ | ⟨number, discovery, more, same, met, walked⟩
  · constructor
    · rw [stuck]
      have none : ∀ state, ¬ nfa.Reaches word state := by
        intro state reached
        rw [← Nfa.mem_run_iff wellFormed, empty] at reached
        contradiction
      exact iff_of_true rfl none
    · rw [stuck]
      intro number walked
      contradiction
    · rw [accepts, stuck]
      show false = (nfa.run word).any nfa.accepting
      rw [empty]
      rfl
  · obtain ⟨row, -, place⟩ := states_ofNfa wellFormed met
    constructor
    · rw [walked]
      obtain ⟨state, member⟩ := List.exists_mem_of_ne_nil _ more
      have reached := (Nfa.mem_run_iff wellFormed word state).mp member
      exact iff_of_false (by simp) fun none => none state reached
    · intro other alsoWalked
      obtain rfl := Option.some.inj (walked.symm.trans alsoWalked)
      refine ⟨_, place, ?_, ?_, ?_⟩
      · rw [same]
        exact nfa.run_ascending word
      · intro member
        rw [same]
        exact Nfa.mem_run_iff wellFormed word member
      · rw [same]
        exact Nfa.accepts_iff wellFormed word
    · rw [accepts, walked, Option.any_some, accepting, place, same]
      rfl

/-- The deterministic automaton of an expression accepts exactly the words of its language. -/
theorem accepts_iff_mem_language (regex : Regex) (word : List Char) :
    (ofNfa (Nfa.ofRegex regex)).accepts word = true ↔ word ∈ regex.language := by
  have wellFormed := Nfa.wellFormed_ofRegex regex
  rw [(simulates_ofNfa wellFormed word).accepts_eq, Nfa.accepts_iff wellFormed]
  exact Nfa.reaches_accepting_iff regex word

/-- The subset construction simulates the automaton of every expression over every word. -/
theorem simulates_ofRegex (regex : Regex) (word : List Char) :
    Simulates (ofNfa (Nfa.ofRegex regex)) (Nfa.ofRegex regex) word :=
  simulates_ofNfa (Nfa.wellFormed_ofRegex regex) word

end Dfa

end CommonWord
