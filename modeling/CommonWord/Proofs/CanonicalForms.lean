import CommonWord.Proofs.Discoveries
import CommonWord.Proofs.Subsets

/-!
The subset construction gives every automaton a canonical form.

Its states stand for different sets, each of them the set of all states that some word reaches, and
they are numbered in the shortlex order of the least words that lead to them.
-/

namespace CommonWord.Dfa

open Word

/-- The canonical form of a deterministic automaton for a nondeterministic one. -/
structure Canonical (dfa : Dfa) (nfa : Nfa) : Prop where
  /-- The start is the first state, which stands for the states that a run begins in. -/
  start : dfa.start = 0 ∧ ∃ state, dfa.states[0]? = some state ∧
    ∀ member, member ∈ state.members ↔ nfa.Path nfa.start [] member
  /-- No two states stand for the same states. -/
  distinct : ∀ (i j : Nat) (first second : State), dfa.states[i]? = some first →
    dfa.states[j]? = some second → first.members = second.members → i = j
  nonempty : ∀ (i : Nat) (state : State), dfa.states[i]? = some state → state.members ≠ []
  ascending : ∀ (i : Nat) (state : State), dfa.states[i]? = some state →
    state.members.Pairwise (· < ·)
  /-- Empty moves do not leave the states that a state stands for. -/
  closed : ∀ (i : Nat) (state : State), dfa.states[i]? = some state →
    ∀ member, member ∈ state.members → ∀ target, target ∈ nfa.moves member →
      target ∈ state.members
  /-- A state has an edge for the labels of the edges of its members, and for no others. -/
  step_iff : ∀ (i : Nat) (state : State) (c : Char), dfa.states[i]? = some state →
    ((∃ next, dfa.step? i c = some next) ↔
      ∃ source target, source ∈ state.members ∧ nfa.edge? source = some (c, target))
  /-- The edge leads to the state that stands for the closure of the targets. -/
  successor : ∀ (i j : Nat) (state : State) (c : Char), dfa.states[i]? = some state →
    dfa.step? i c = some j → ∃ next, dfa.states[j]? = some next ∧
      ∀ member, member ∈ next.members ↔ ∃ source target, source ∈ state.members ∧
        nfa.edge? source = some (c, target) ∧ nfa.Path target [] member
  /-- Words lead from the start to every state, and one of them is the least. -/
  reached : ∀ i, i < dfa.size →
    ∃ word, Word.IsLeast (fun word => dfa.walk? dfa.start word = some i) word
  /-- The states are numbered in the order of their least words. -/
  ordered : ∀ (i j : Nat) (first second : List Char), i < j →
    Word.IsLeast (fun word => dfa.walk? dfa.start word = some i) first →
    Word.IsLeast (fun word => dfa.walk? dfa.start word = some j) second → Precedes first second

variable {nfa : Nfa}

/-- Every state was discovered by a word, and it stands for the states that a run over that word
    keeps. -/
theorem exists_discovery (wellFormed : nfa.WellFormed) {number : Nat} {state : State}
    (place : (ofNfa nfa).states[number]? = some state) :
    ∃ discovery, nfa.explore.found[number]? = some discovery ∧ discovery.key = state.members ∧
      nfa.run discovery.word = state.members ∧ state.members ≠ [] := by
  obtain ⟨invariant, -⟩ := nfa.explore_spec wellFormed
  have inside : number < nfa.explore.found.size :=
    size_ofNfa wellFormed ▸ (Array.getElem?_eq_some_iff.mp place).1
  have met := Array.getElem?_eq_getElem inside
  obtain ⟨row, -, known⟩ := states_ofNfa wellFormed met
  obtain rfl := Option.some.inj (place.symm.trans known)
  obtain ⟨run, more⟩ :=
    (Nfa.subsets_walk?_iff wellFormed _ _).mp (invariant.walks number _ met)
  exact ⟨_, met, rfl, run, more⟩

/-- The words that lead to a state are those that lead to its set. -/
theorem walk?_ofNfa_iff (wellFormed : nfa.WellFormed) {number : Nat} {discovery : Discovery}
    (met : nfa.explore.found[number]? = some discovery) (word : List Char) :
    (ofNfa nfa).walk? (ofNfa nfa).start word = some number ↔
      nfa.subsets.walk? nfa.subsets.start word = some discovery.key := by
  obtain ⟨invariant, -⟩ := nfa.explore_spec wellFormed
  rw [Nfa.subsets_walk?_iff wellFormed]
  rcases walk?_ofNfa wellFormed word with ⟨empty, stuck⟩ | ⟨place, other, more, same, also, walked⟩
  · rw [stuck, empty]
    refine iff_of_false (by simp) ?_
    rintro ⟨key, more⟩
    exact more key.symm
  · rw [walked, Option.some_inj]
    constructor
    · rintro rfl
      obtain rfl := Option.some.inj (met.symm.trans also)
      exact ⟨same.symm, same ▸ more⟩
    · rintro ⟨run, -⟩
      exact invariant.indexed.unique also met (same.trans run)

/-- The word that discovered a state is the least one that leads to it. -/
theorem isLeast_word (wellFormed : nfa.WellFormed) {number : Nat} {discovery : Discovery}
    (met : nfa.explore.found[number]? = some discovery) :
    Word.IsLeast (fun word => (ofNfa nfa).walk? (ofNfa nfa).start word = some number)
      discovery.word := by
  simp only [walk?_ofNfa_iff wellFormed met]
  exact (nfa.explore_spec wellFormed).1.isLeast met

theorem walk?_lt_size (wellFormed : nfa.WellFormed) {word : List Char} {number : Nat}
    (walked : (ofNfa nfa).walk? (ofNfa nfa).start word = some number) :
    number < (ofNfa nfa).size := by
  rcases walk?_ofNfa wellFormed word with ⟨-, stuck⟩ | ⟨place, discovery, -, -, met, also⟩
  · rw [stuck] at walked
    contradiction
  · obtain rfl := Option.some.inj (walked.symm.trans also)
    rw [size_ofNfa wellFormed]
    exact (Array.getElem?_eq_some_iff.mp met).1

private theorem exists_step?_iff (wellFormed : nfa.WellFormed) {number : Nat}
    {discovery : Discovery} (met : nfa.explore.found[number]? = some discovery) (c : Char) :
    (∃ next, (ofNfa nfa).step? number c = some next) ↔
      ∃ source target, source ∈ discovery.key ∧ nfa.edge? source = some (c, target) := by
  have targets : (∃ source target, source ∈ discovery.key ∧ nfa.edge? source = some (c, target)) ↔
      nfa.advance discovery.key c ≠ [] := by
    rw [Ne, Nfa.advance_eq_nil_iff wellFormed, List.eq_nil_iff_forall_not_mem, not_forall_not]
    simp only [Nfa.mem_targets_iff]
    exact exists_comm
  rw [targets]
  rcases step?_ofNfa wellFormed met c with ⟨empty, stuck⟩ | ⟨next, _, more, -, -, step⟩
  · simp [stuck, empty]
  · exact iff_of_true ⟨next, step⟩ more

theorem canonical_ofNfa (wellFormed : nfa.WellFormed) : Canonical (ofNfa nfa) nfa := by
  obtain ⟨invariant, -⟩ := nfa.explore_spec wellFormed
  constructor
  case start =>
    obtain ⟨row, -, place⟩ := states_ofNfa wellFormed invariant.start
    exact ⟨start_ofNfa nfa, _, place, Nfa.mem_initial_iff wellFormed⟩
  case distinct =>
    intro i j first second one two same
    obtain ⟨left, metLeft, leftKey, -⟩ := exists_discovery wellFormed one
    obtain ⟨right, metRight, rightKey, -⟩ := exists_discovery wellFormed two
    exact invariant.indexed.unique metLeft metRight (by rw [leftKey, rightKey, same])
  case nonempty =>
    intro i state place
    obtain ⟨_, -, -, -, more⟩ := exists_discovery wellFormed place
    exact more
  case ascending =>
    intro i state place
    obtain ⟨discovery, -, -, run, -⟩ := exists_discovery wellFormed place
    exact run ▸ nfa.run_ascending discovery.word
  case closed =>
    intro i state place member known target step
    obtain ⟨discovery, -, -, run, -⟩ := exists_discovery wellFormed place
    rw [← run, Nfa.mem_run_iff wellFormed] at known ⊢
    exact known.move step
  case step_iff =>
    intro i state c place
    obtain ⟨discovery, met, key, -⟩ := exists_discovery wellFormed place
    exact key ▸ exists_step?_iff wellFormed met c
  case successor =>
    intro i j state c place step
    obtain ⟨discovery, met, key, -⟩ := exists_discovery wellFormed place
    rcases step?_ofNfa wellFormed met c with ⟨-, stuck⟩ | ⟨next, target, -, same, found, taken⟩
    · rw [step] at stuck
      contradiction
    · obtain rfl := Option.some.inj (step.symm.trans taken)
      obtain ⟨row, -, complete⟩ := states_ofNfa wellFormed found
      refine ⟨_, complete, fun member => ?_⟩
      rw [← key, ← Nfa.mem_advance_iff wellFormed, ← same]
  case reached =>
    intro i inside
    rw [size_ofNfa wellFormed] at inside
    exact ⟨_, isLeast_word wellFormed (Array.getElem?_eq_getElem inside)⟩
  case ordered =>
    intro i j first second less one two
    have inside := walk?_lt_size wellFormed two.1
    rw [size_ofNfa wellFormed] at inside
    have metLeft := Array.getElem?_eq_getElem (Nat.lt_trans less inside)
    have metRight := Array.getElem?_eq_getElem inside
    rw [one.unique (isLeast_word wellFormed metLeft), two.unique (isLeast_word wellFormed metRight)]
    exact invariant.ascending i j _ _ less metLeft metRight

/-- The subset construction gives the automaton of every expression its canonical form. -/
theorem canonical_ofRegex (regex : Regex) :
    Canonical (ofNfa (Nfa.ofRegex regex)) (Nfa.ofRegex regex) :=
  canonical_ofNfa (Nfa.wellFormed_ofRegex regex)

end CommonWord.Dfa
