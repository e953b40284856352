import CommonWord.Proofs.Explorations
import Mathlib.Data.List.Sort
import Mathlib.Data.Set.Card
import Mathlib.Logic.Relation

/-!
What an exploration finds, and how it goes on turn by turn.

Every key is found by the least word that leads to it. So the words found are settled by the graph
and the key that comes next, however the keys themselves are written: they are the least words of
their keys that come before all that the next expansion can find.
-/

namespace CommonWord

open Word

/-- A word is the least one that leads to some key. -/
def Graph.Leading (graph : Graph) (word : List Char) : Prop :=
  ∃ key, Word.IsLeast (fun word => graph.walk? graph.start word = some key) word

namespace Exploration

variable {graph : Graph} {goal : Key → Bool} {exploration : Exploration} {discovery : Discovery}

/-! ### Least words -/

/-- Every key was found by the least word that leads to it. -/
theorem Invariant.isLeast (invariant : exploration.Invariant graph) {number : Nat}
    (met : exploration.found[number]? = some discovery) :
    Word.IsLeast (fun word => graph.walk? graph.start word = some discovery.key)
      discovery.word := by
  refine ⟨invariant.walks number discovery met, fun other walked distinct => ?_⟩
  rcases invariant.covers other discovery.key walked with
    ⟨place, same, also, key, early⟩ | ⟨next, c, due, early⟩
  · obtain rfl := invariant.indexed.unique met also key.symm
    obtain rfl := Option.some.inj (met.symm.trans also)
    exact early.resolve_left distinct.symm
  · have before := invariant.front number discovery next c met due
    exact (NotAfter.trans (.inr before) early).resolve_left distinct.symm

/-- The words found are closed under prefixes, and only of expanded keys are they continued. -/
theorem Invariant.before (invariant : exploration.Invariant graph) {number : Nat}
    (met : exploration.found[number]? = some discovery) {word : List Char} {c : Char}
    (spelled : discovery.word = word ++ [c]) :
    ∃ (place : Nat) (parent : Discovery), exploration.found[place]? = some parent ∧
      parent.word = word ∧ place < exploration.edges.size := by
  have least := invariant.isLeast met
  rw [spelled] at least
  have walked : graph.walk? graph.start (word ++ [c]) = some discovery.key := least.1
  rw [Graph.walk?_concat] at walked
  obtain ⟨middle, before, step⟩ := Option.bind_eq_some_iff.mp walked
  -- If the next key came no later than the prefix, its expansion could still find the word.
  have unmet : ∀ next, exploration.pending? = some next → ¬ NotAfter next.word word := by
    intro next due early
    have front := invariant.front number discovery next c met due
    exact front.not_notAfter (spelled ▸ early.concat c)
  rcases invariant.covers word middle before with
    ⟨place, parent, found, rfl, early⟩ | ⟨next, d, due, early⟩
  · refine ⟨place, parent, found, ?_, ?_⟩
    · rcases early with same | earlier
      · exact same
      · have leads : graph.walk? graph.start (parent.word ++ [c]) = some discovery.key := by
          rw [Graph.walk?_concat, invariant.walks place parent found]
          exact step
        exact absurd (least.notAfter leads) (earlier.concat c c).not_notAfter
    · by_contra waiting
      obtain ⟨next, due, first⟩ := invariant.due_of_le found (Nat.le_of_not_lt waiting)
      exact unmet next due (first.trans early)
  · exact absurd ((notAfter_append next.word [d]).trans early) (unmet next due)

/-- The word by which a key was found is no longer than the number of the key. -/
theorem Invariant.length_le (invariant : exploration.Invariant graph) {number : Nat}
    (met : exploration.found[number]? = some discovery) : discovery.word.length ≤ number := by
  induction number using Nat.strongRecOn generalizing discovery with
  | ind number ih =>
    rcases List.eq_nil_or_concat' discovery.word with empty | ⟨word, c, spelled⟩
    · simp [empty]
    · obtain ⟨place, parent, found, rfl, -⟩ := invariant.before met spelled
      have longer : Precedes parent.word discovery.word := spelled ▸ precedes_concat _ c
      have earlier : place < number := by
        rcases Nat.lt_trichotomy place number with below | rfl | above
        · exact below
        · obtain rfl := Option.some.inj (met.symm.trans found)
          exact absurd longer (precedes_irrefl _)
        · have later := invariant.ascending _ _ _ _ above met found
          exact absurd (longer.trans later) (precedes_irrefl _)
      have := ih place earlier found
      rw [spelled, List.length_append, List.length_singleton]
      omega

/-! ### The words found -/

/-- The words by which the keys were found, in the order of the keys. -/
def words (exploration : Exploration) : List (List Char) :=
  exploration.found.toList.map Discovery.word

theorem Invariant.words_ascending (invariant : exploration.Invariant graph) :
    exploration.words.Pairwise Precedes := by
  rw [words, List.pairwise_map, List.pairwise_iff_getElem]
  intro i j left right less
  exact invariant.ascending i j _ _ less (Array.getElem?_eq_getElem left)
    (Array.getElem?_eq_getElem right)

/-- The words found are the least words of keys that come before what the next expansion can
    find. -/
theorem Invariant.mem_words_iff (invariant : exploration.Invariant graph) (word : List Char) :
    word ∈ exploration.words ↔ graph.Leading word ∧
      ∀ next c, exploration.pending?.map Discovery.word = some next →
        Precedes word (next ++ [c]) := by
  rw [words, mem_map_found_iff]
  constructor
  · rintro ⟨number, discovery, met, rfl⟩
    refine ⟨⟨discovery.key, invariant.isLeast met⟩, fun word c first => ?_⟩
    obtain ⟨next, due, rfl⟩ := Option.map_eq_some_iff.mp first
    exact invariant.front number discovery next c met due
  · rintro ⟨⟨key, least⟩, early⟩
    rcases invariant.covers word key least.1 with
      ⟨number, discovery, met, rfl, -⟩ | ⟨next, c, due, late⟩
    · exact ⟨number, discovery, met, (invariant.isLeast met).unique least⟩
    · have before := early next.word c (Option.map_eq_some_iff.mpr ⟨next, due, rfl⟩)
      exact absurd late before.not_notAfter

/-- Explorations of two graphs have found the same words when the least words that lead to keys are
    the same in both graphs and the next expansions begin at the same word. -/
theorem Invariant.words_eq {other : Graph} {second : Exploration}
    (invariant : exploration.Invariant graph) (also : second.Invariant other)
    (leading : ∀ word, graph.Leading word ↔ other.Leading word)
    (due : exploration.pending?.map Discovery.word = second.pending?.map Discovery.word) :
    exploration.words = second.words := by
  apply invariant.words_ascending.eq_of_mem_iff also.words_ascending
  intro word
  rw [invariant.mem_words_iff, also.mem_words_iff, leading, due]

/-! ### The keys found -/

/-- When no key is left to expand, the keys found are those that words lead to. -/
theorem Invariant.ncard_reached (invariant : exploration.Invariant graph)
    (nothing : exploration.pending? = none) :
    {key | ∃ word, graph.walk? graph.start word = some key}.ncard = exploration.found.size := by
  have reached : {key | ∃ word, graph.walk? graph.start word = some key} =
      ↑(exploration.found.toList.map Discovery.key).toFinset := by
    ext key
    rw [Set.mem_ofPred_eq, List.coe_toFinset, Set.mem_ofPred_eq, mem_map_found_iff]
    constructor
    · rintro ⟨word, walked⟩
      rcases invariant.covers word key walked with
        ⟨number, discovery, met, same, -⟩ | ⟨next, _, due, -⟩
      · exact ⟨number, discovery, met, same⟩
      · rw [nothing] at due
        contradiction
    · rintro ⟨number, discovery, met, rfl⟩
      exact ⟨discovery.word, invariant.walks number discovery met⟩
  rw [reached, Set.ncard_coe_finset, List.toFinset_card_of_nodup invariant.keys_nodup]
  simp

/-! ### Turn by turn -/

/-- One turn of an exploration: the key that comes next is no goal and is expanded. -/
def Turn (graph : Graph) (goal : Key → Bool) (before after : Exploration) : Prop :=
  ∃ discovery, before.pending? = some discovery ∧ goal discovery.key = false ∧
    after = before.expand graph discovery

variable {later : Exploration}

theorem turn_rightUnique : Relator.RightUnique (Turn graph goal) := by
  rintro before _ _ ⟨first, due, -, rfl⟩ ⟨second, also, -, rfl⟩
  obtain rfl := Option.some.inj (due.symm.trans also)
  rfl

/-- Where an exploration has ended there is no further turn. -/
theorem Ended.not_turn (ended : exploration.Ended goal) : ¬ Turn graph goal exploration later := by
  rintro ⟨discovery, due, plain, -⟩
  have reached := ended discovery due
  rw [plain] at reached
  contradiction

/-- A run takes turns. -/
theorem run_turns (graph : Graph) (goal : Key → Bool) (bound : Nat) (exploration : Exploration) :
    Relation.ReflTransGen (Turn graph goal) exploration (run graph goal bound exploration) := by
  induction bound generalizing exploration with
  | zero => exact .refl
  | succ bound ih =>
    rw [run]
    split
    · exact .refl
    · next discovery due =>
      split
      · exact .refl
      · next plain => exact .head ⟨discovery, due, by simpa using plain, rfl⟩ (ih _)

/-- How an exploration stands to what becomes of it: nothing that was found is lost. -/
structure Continues (graph : Graph) (before after : Exploration) : Prop where
  invariant : after.Invariant graph
  expanded : before.edges.size ≤ after.edges.size
  kept : ∀ (number : Nat) (discovery : Discovery), before.found[number]? = some discovery →
    after.found[number]? = some discovery

/-- What one turn does. -/
private theorem Invariant.turn (invariant : exploration.Invariant graph) (ordered : graph.Ordered)
    (turn : Turn graph goal exploration later) : Continues graph exploration later ∧
      later.edges.size = exploration.edges.size + 1 := by
  obtain ⟨discovery, due, -, rfl⟩ := turn
  obtain ⟨_, -, grows⟩ := invariant.expand_grows ordered due
  have grown := invariant.expand_size ordered due
  exact ⟨⟨invariant.expand ordered due, by omega, grows.kept⟩, grown⟩

/-- What any number of turns does. -/
theorem Invariant.turns (invariant : exploration.Invariant graph) (ordered : graph.Ordered)
    (turns : Relation.ReflTransGen (Turn graph goal) exploration later) :
    Continues graph exploration later := by
  induction turns with
  | refl => exact ⟨invariant, Nat.le_refl _, fun _ _ met => met⟩
  | tail _ turn ih =>
    have next := (ih.invariant.turn ordered turn).1
    exact ⟨next.invariant, Nat.le_trans ih.expanded next.expanded,
      fun number discovery met => next.kept _ _ (ih.kept number discovery met)⟩

/-- Keys are expanded in the order of their words. -/
theorem Invariant.due_precedes (invariant : exploration.Invariant graph) (ordered : graph.Ordered)
    (turns : Relation.TransGen (Turn graph goal) exploration later) {next : Discovery}
    (due : exploration.pending? = some discovery) (dueLater : later.pending? = some next) :
    Precedes discovery.word next.word := by
  obtain ⟨middle, turn, rest⟩ := Relation.TransGen.head'_iff.mp turns
  obtain ⟨first, grown⟩ := invariant.turn ordered turn
  have continues := first.invariant.turns ordered rest
  have still := continues.kept _ _ (first.kept _ _ due)
  have expanded := continues.expanded
  exact continues.invariant.ascending _ _ _ _ (by omega) still dueLater

end Exploration

end CommonWord
