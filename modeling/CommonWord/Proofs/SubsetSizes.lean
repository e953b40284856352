import CommonWord.Proofs.CanonicalForms
import CommonWord.Regex.Nodes
import Mathlib.Algebra.BigOperators.Group.Finset.Basic

/-!
The subset construction ends, and how many states it makes.

Every state but the first stands for the closure of some targets of edges with one and the same
label. An expression has as many edges with a label as leaves with that letter, so there are at most
as many such states for a letter as nonempty sets of its leaves.
-/

namespace CommonWord

/-! ### The loop -/

namespace Exploration

/-- These keys are expanded in turn while an exploration goes on from one point to another. -/
inductive Expands (graph : Graph) : Exploration → List Key → Exploration → Prop where
  | stay (exploration : Exploration) : Expands graph exploration [] exploration
  | turn {before after : Exploration} {discovery : Discovery} {keys : List Key}
      (due : before.pending? = some discovery)
      (rest : Expands graph (before.expand graph discovery) keys after) :
      Expands graph before (discovery.key :: keys) after

variable {graph : Graph} {before middle after : Exploration} {keys more : List Key}

private theorem run_expands (graph : Graph) (bound : Nat) (exploration : Exploration) :
    ∃ keys, Expands graph exploration keys (run graph (fun _ => false) bound exploration) := by
  induction bound generalizing exploration with
  | zero => exact ⟨[], .stay exploration⟩
  | succ bound ih =>
    rw [run]
    cases due : exploration.pending? with
    | none => exact ⟨[], .stay exploration⟩
    | some discovery =>
      obtain ⟨keys, rest⟩ := ih (exploration.expand graph discovery)
      exact ⟨_, .turn due rest⟩

/-- Whatever point a run has come to, the rest of the keys lead on to where it ends. -/
theorem Expands.onward (first : Expands graph before keys middle)
    (whole : Expands graph before more after) (nothing : after.pending? = none) :
    ∃ rest, keys ++ rest = more ∧ Expands graph middle rest after := by
  induction first generalizing more with
  | stay => exact ⟨more, rfl, whole⟩
  | turn due _ ih =>
    cases whole with
    | stay =>
      rw [nothing] at due
      contradiction
    | turn also rest =>
      obtain rfl := Option.some.inj (due.symm.trans also)
      obtain ⟨more, rfl, onward⟩ := ih rest
      exact ⟨more, rfl, onward⟩

/-- The keys are expanded in the order in which they were found. -/
theorem Expands.take_keys (expands : Expands graph before keys after)
    (invariant : before.Invariant graph) (ordered : graph.Ordered) :
    Continues graph before after ∧ (after.found.toList.map Discovery.key).take after.edges.size =
      (after.found.toList.map Discovery.key).take before.edges.size ++ keys := by
  induction expands with
  | stay exploration => exact ⟨⟨invariant, Nat.le_refl _, fun _ _ met => met⟩, by simp⟩
  | @turn before after discovery keys due rest ih =>
    obtain ⟨continues, expanded⟩ := ih (invariant.expand ordered due)
    obtain ⟨row, -, grows⟩ := invariant.expand_grows ordered due
    have grown := invariant.expand_size ordered due
    have further := continues.expanded
    have kept : ∀ (number : Nat) (found : Discovery), before.found[number]? = some found →
        after.found[number]? = some found :=
      fun number found met => continues.kept number found (grows.kept number found met)
    refine ⟨⟨continues.invariant, by omega, kept⟩, ?_⟩
    have place : after.found[before.edges.size]? = some discovery := kept _ _ due
    rw [expanded, grown, List.take_add_one]
    simp [place]

end Exploration

namespace Nfa

variable {nfa : Nfa}

/-- The construction expands each set that it has met once, in order, and comes to an end. -/
theorem explore_expands (wellFormed : nfa.WellFormed) :
    Exploration.Expands nfa.subsets (.initial nfa.subsets)
      (nfa.explore.found.toList.map Discovery.key) nfa.explore := by
  obtain ⟨keys, expands⟩ :=
    Exploration.run_expands nfa.subsets (Nat.pow 2 nfa.size) (.initial nfa.subsets)
  have invariant := Exploration.invariant_initial nfa.subsets
  obtain ⟨-, order⟩ := expands.take_keys invariant (subsets_ordered nfa)
  obtain ⟨final, nothing⟩ := nfa.explore_spec wellFormed
  have spent := Array.getElem?_eq_none_iff.mp nothing
  have all : (nfa.explore.found.toList.map Discovery.key).take nfa.explore.edges.size =
      nfa.explore.found.toList.map Discovery.key :=
    List.take_of_length_le (by simpa using spent)
  have same : nfa.explore.found.toList.map Discovery.key = keys := by
    rw [← all]
    exact order
  exact same ▸ expands

/-! ### The sets that the construction can meet -/

/-- The targets of all edges with a label. -/
def edgeTargets (nfa : Nfa) (label : Char) : List Nat := nfa.targets (List.range nfa.size) label

private theorem mem_edgeTargets_iff (label : Char) (target : Nat) :
    target ∈ nfa.edgeTargets label ↔ ∃ state, nfa.edge? state = some (label, target) := by
  rw [edgeTargets, mem_targets_iff]
  constructor
  · rintro ⟨state, -, edge⟩
    exact ⟨state, edge⟩
  · rintro ⟨state, edge⟩
    obtain ⟨own, place, -⟩ := Option.bind_eq_some_iff.mp edge
    exact ⟨state, List.mem_range.mpr (Array.getElem?_eq_some_iff.mp place).1, edge⟩

/-- The sets of states after a letter: the closures of some of the targets of its edges. -/
def setsAfter (nfa : Nfa) (label : Char) : List Key :=
  ((nfa.edgeTargets label).sublists.erase []).map nfa.closure

private theorem length_setsAfter (nfa : Nfa) (label : Char) :
    (nfa.setsAfter label).length = 2 ^ (nfa.edgeTargets label).length - 1 := by
  rw [setsAfter, List.length_map, List.length_erase_of_mem, List.length_sublists]
  exact List.mem_sublists.mpr (List.nil_sublist _)

/-- Whatever a run advances from, it comes to one of the sets after the letter. -/
private theorem advance_mem_setsAfter (wellFormed : nfa.WellFormed) {states : List Nat}
    {label : Char} (offered : nfa.targets states label ≠ []) :
    nfa.advance states label ∈ nfa.setsAfter label := by
  have known : ∀ target, target ∈ nfa.targets states label → target ∈ nfa.edgeTargets label := by
    intro target member
    obtain ⟨state, -, edge⟩ := (mem_targets_iff states label target).mp member
    exact (mem_edgeTargets_iff label target).mpr ⟨state, edge⟩
  have inside : ∀ target, target ∈ nfa.targets states label → target < nfa.size := by
    intro target member
    obtain ⟨state, -, edge⟩ := (mem_targets_iff states label target).mp member
    exact wellFormed.edge_lt state label target edge
  -- The targets are listed by the states that lead there, and here in the order of all targets.
  let chosen := (nfa.edgeTargets label).filter (· ∈ nfa.targets states label)
  have same : ∀ target, target ∈ nfa.targets states label ↔ target ∈ chosen := by
    intro target
    simpa [chosen] using known target
  have some : chosen ≠ [] := by
    obtain ⟨target, member⟩ := List.exists_mem_of_ne_nil _ offered
    exact List.ne_nil_of_mem ((same target).mp member)
  refine List.mem_map.mpr ⟨chosen, ?_, (closure_congr wellFormed inside same).symm⟩
  exact (List.mem_erase_of_ne some).mpr (List.mem_sublists.mpr List.filter_sublist)

/-- All sets that a construction can meet when these are the labels of the edges. -/
def allSets (nfa : Nfa) (labels : List Char) : List Key :=
  nfa.initial :: labels.flatMap nfa.setsAfter

private theorem allSets_universe (wellFormed : nfa.WellFormed) {labels : List Char}
    (all : ∀ state label target, nfa.edge? state = some (label, target) → label ∈ labels) :
    Exploration.Universe nfa.subsets (nfa.allSets labels) := by
  refine ⟨.head _, fun states _ edge member => .tail _ ?_⟩
  obtain ⟨label, offered, rfl⟩ := List.mem_map.mp member
  have more := (mem_labels_iff states label).mp offered
  obtain ⟨target, reached⟩ := List.exists_mem_of_ne_nil _ more
  obtain ⟨state, -, edge⟩ := (mem_targets_iff states label target).mp reached
  exact List.mem_flatMap.mpr
    ⟨label, all state label target edge, advance_mem_setsAfter wellFormed more⟩

/-! ### The edges of an expression -/

namespace Fragment

/-- The labels of the edges in an arena, in the order of the states. -/
def edgeLabels (arena : Arena) : List Char := (arena.toList.filterMap State.edge).map Prod.fst

private theorem edgeLabels_push (arena : Arena) (new : State) :
    edgeLabels (arena.push new) = edgeLabels arena ++ (new.edge.map Prod.fst).toList := by
  cases edge : new.edge <;> simp [edgeLabels, edge]

private theorem edgeLabels_redirect (accepts : List Nat) (target : Nat) (arena : Arena) :
    edgeLabels (redirect accepts target arena) = edgeLabels arena := by
  have edges : (redirect accepts target arena).toList.map State.edge =
      arena.toList.map State.edge := by
    apply List.ext_getElem?
    intro state
    simp [getElem?_redirect, Function.comp_def]
  have same := congrArg (List.filterMap id) edges
  simp only [List.filterMap_map, Function.id_comp] at same
  rw [edgeLabels, same, edgeLabels]

/-- The labelled edges of a fragment are those of the leaves of its expression, in order. -/
theorem edgeLabels_ofRegex (regex : Regex) (arena : Arena) :
    edgeLabels (ofRegex regex arena).arena = edgeLabels arena ++ regex.letters := by
  induction regex generalizing arena with
  | epsilon => simp [ofRegex, ofEpsilon, edgeLabels_push]
  | char c => simp [ofRegex, ofChar, edgeLabels_push]
  | concat l r leftIh rightIh => simp [ofRegex, andThen, edgeLabels_redirect, leftIh, rightIh]
  | union l r leftIh rightIh => simp [ofRegex, ofUnion, edgeLabels_push, leftIh, rightIh]
  | star x ih => simp [ofRegex, ofStar, edgeLabels_redirect, edgeLabels_push, ih]

end Fragment

private theorem edges_range (nfa : Nfa) :
    (List.range nfa.size).filterMap nfa.edge? = nfa.states.toList.filterMap State.edge := by
  have numbered : (List.range nfa.size).map (nfa.states[·]?) = nfa.states.toList.map some := by
    apply List.ext_getElem <;> simp [size]
  have same := congrArg (List.filterMap (Option.bind · State.edge)) numbered
  rw [List.filterMap_map, List.filterMap_map] at same
  exact same

/-- There are as many edges with a label as leaves with that letter. -/
theorem length_edgeTargets (regex : Regex) (label : Char) :
    ((ofRegex regex).edgeTargets label).length = regex.letters.count label := by
  have labels : Fragment.edgeLabels (ofRegex regex).states = regex.letters := by
    rw [ofRegex, Fragment.build_eq_ofRegex]
    exact Fragment.edgeLabels_ofRegex regex #[]
  rw [← labels, edgeTargets, targets, edges_range, Fragment.edgeLabels,
    List.length_filterMap_eq_countP, List.count, List.countP_map]
  congr 1
  funext edge
  by_cases same : edge.1 = label <;> simp [same]

private theorem label_mem_letters (regex : Regex) {state target : Nat} {label : Char}
    (edge : (ofRegex regex).edge? state = some (label, target)) : label ∈ regex.letters := by
  have member := ((ofRegex regex).mem_edgeTargets_iff label target).mpr ⟨state, edge⟩
  rw [← List.count_pos_iff, ← length_edgeTargets]
  exact List.length_pos_of_mem member

end Nfa

/-! ### The bound -/

namespace Dfa

open Exploration (Expands)

theorem size_le_letters (regex : Regex) : (ofNfa (Nfa.ofRegex regex)).size ≤
    1 + ∑ c ∈ regex.letters.toFinset, (2 ^ regex.letters.count c - 1) := by
  have wellFormed := Nfa.wellFormed_ofRegex regex
  have labels : ∀ state label target, (Nfa.ofRegex regex).edge? state = some (label, target) →
      label ∈ regex.letters.toFinset.toList := by
    intro state label target edge
    simpa using Nfa.label_mem_letters regex edge
  have bound := (Nfa.explore_spec wellFormed).1.found_le (Nfa.allSets_universe wellFormed labels)
  rw [size_ofNfa wellFormed]
  refine Nat.le_trans bound ?_
  rw [Nfa.allSets, List.length_cons, List.length_flatMap]
  simp only [Nfa.length_setsAfter, Nfa.length_edgeTargets]
  rw [Finset.sum_map_toList, Nat.add_comm]

/-- The subset construction for an expression expands each of its states once, in order, until none
    is left, and whatever point it has come to, it goes on to that end. Where each letter `c` stands
    at so many leaves, `n c`, it makes at most `2 ^ n c - 1` states for the letter, and one more at
    the start; so if no letter stands at two leaves, at most one more state than there are
    letters. -/
theorem subset_construction_ends (regex : Regex) :
    let nfa := Nfa.ofRegex regex
    let dfa := ofNfa nfa
    let sets := dfa.states.toList.map State.members
    (Expands nfa.subsets (.initial nfa.subsets) sets nfa.explore ∧
      nfa.explore.pending? = none ∧ sets.Nodup) ∧
    (∀ keys exploration, Expands nfa.subsets (.initial nfa.subsets) keys exploration →
      ∃ rest, keys ++ rest = sets ∧ Expands nfa.subsets exploration rest nfa.explore) ∧
    dfa.size ≤ 1 + ∑ c ∈ regex.letters.toFinset, (2 ^ regex.letters.count c - 1) ∧
    (regex.letters.Nodup → dfa.size ≤ 1 + regex.letters.length) := by
  intro nfa dfa sets
  have wellFormed : nfa.WellFormed := Nfa.wellFormed_ofRegex regex
  obtain ⟨invariant, nothing⟩ := nfa.explore_spec wellFormed
  have keys : sets = nfa.explore.found.toList.map Discovery.key := members_ofNfa wellFormed
  have whole : Expands nfa.subsets (.initial nfa.subsets) sets nfa.explore :=
    keys ▸ Nfa.explore_expands wellFormed
  have bound := size_le_letters regex
  refine ⟨⟨whole, nothing, keys ▸ invariant.keys_nodup⟩,
    fun _ _ expands => expands.onward whole nothing, bound, fun once => ?_⟩
  have single : ∀ c ∈ regex.letters.toFinset,
      2 ^ regex.letters.count c - 1 = regex.letters.count c := by
    intro c member
    rw [List.count_eq_one_of_mem once (List.mem_toFinset.mp member)]
    rfl
  rwa [Finset.sum_congr rfl single, List.sum_toFinset_count_eq_length] at bound

end Dfa

end CommonWord
