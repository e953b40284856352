import CommonWord.Proofs.Discoveries
import CommonWord.Proofs.Products
import CommonWord.Transcript

/-!
What holds while the search for a common word goes on, and what it tells at its end.

The search meets the tuples of states in the shortlex order of the words that lead to them, each
once and by the least such word. So it ends after no more turns than there are tuples, the word that
it finds is shorter than the number of tuples that it met, and if it finds none it has met exactly
the tuples that words lead to.
-/

namespace CommonWord.Dfa

open Word

variable {dfas : List Dfa} {exploration : Exploration}

private theorem tuples_eq_prod (dfas : List Dfa) : tuples dfas = (dfas.map size).prod := by
  induction dfas with
  | nil => rfl
  | cons dfa dfas ih => rw [tuples, ih, List.map_cons, List.prod_cons]

/-! ### The loop -/

/-- One turn of the search: the tuple that comes next is not accepted by all and is expanded. -/
def Turn (dfas : List Dfa) : Exploration → Exploration → Prop :=
  Exploration.Turn (product dfas) (acceptingAll dfas)

/-- What holds of the search after any number of turns. -/
structure Searched (dfas : List Dfa) (exploration : Exploration) : Prop where
  /-- The word of a tuple takes every automaton from its start to its component of the tuple, and no
      earlier word does. -/
  least : ∀ discovery, discovery ∈ exploration.found →
    Word.IsLeast (Walked dfas · discovery.key) discovery.word
  /-- No tuple is met twice. -/
  once : (exploration.found.toList.map Discovery.key).Nodup
  /-- Tuples are met in the order of their words. -/
  ascending : exploration.words.Pairwise Precedes
  bounded : exploration.found.size ≤ (dfas.map size).prod

private theorem isLeast_walked (wellFormed : ∀ dfa, dfa ∈ dfas → dfa.WellFormed)
    (invariant : exploration.Invariant (product dfas)) {number : Nat} {discovery : Discovery}
    (met : exploration.found[number]? = some discovery) :
    Word.IsLeast (Walked dfas · discovery.key) discovery.word := by
  have least := invariant.isLeast met
  refine ⟨walked_of_walk? wellFormed least.1, fun other walked distinct => ?_⟩
  obtain ⟨first, early, walk⟩ := Walked.leads wellFormed walked
  exact ((least.notAfter walk).trans early).resolve_left distinct.symm

private theorem searched_of_invariant (wellFormed : ∀ dfa, dfa ∈ dfas → dfa.WellFormed)
    (invariant : exploration.Invariant (product dfas)) : Searched dfas exploration := by
  refine ⟨?_, invariant.keys_nodup, invariant.words_ascending, ?_⟩
  · intro discovery member
    obtain ⟨number, met⟩ := Array.mem_iff_getElem?.mp member
    exact isLeast_walked wellFormed invariant met
  · rw [← tuples_eq_prod, ← length_allTuples]
    exact invariant.found_le (product_universe wellFormed)

private theorem exploreProduct_turns (dfas : List Dfa) :
    Relation.ReflTransGen (Turn dfas) (.initial (product dfas)) (exploreProduct dfas) :=
  Exploration.run_turns ..

/-- Whatever the search has come to, it goes on to the same end. -/
theorem turns_exploreProduct (wellFormed : ∀ dfa, dfa ∈ dfas → dfa.WellFormed)
    (reached : Relation.ReflTransGen (Turn dfas) (.initial (product dfas)) exploration) :
    Relation.ReflTransGen (Turn dfas) exploration (exploreProduct dfas) := by
  obtain ⟨-, -, ended⟩ := exploreProduct_spec wellFormed
  -- There is one way to go on, so of two points of the search one comes after the other.
  rcases Relation.ReflTransGen.total_of_right_unique Exploration.turn_rightUnique reached
    (exploreProduct_turns dfas) with onward | back
  · exact onward
  · rcases back.cases_head with rfl | ⟨next, turn, -⟩
    · exact .refl
    · exact absurd turn ended.not_turn

/-! ### The end -/

private theorem length_lt_met (wellFormed : ∀ dfa, dfa ∈ dfas → dfa.WellFormed) {word : List Char}
    (found : commonWord dfas = some word) : word.length < (search dfas).met := by
  obtain ⟨invariant, -, -⟩ := exploreProduct_spec wellFormed
  rw [commonWord_eq wellFormed] at found
  obtain ⟨discovery, due, rfl⟩ := Option.map_eq_some_iff.mp found
  have inside := (Array.getElem?_eq_some_iff.mp due).1
  exact Nat.lt_of_le_of_lt (invariant.length_le due) inside

/-- A search that finds no word has met the tuples that words lead to. -/
theorem met_eq_ncard (wellFormed : ∀ dfa, dfa ∈ dfas → dfa.WellFormed)
    (nothing : commonWord dfas = none) :
    (search dfas).met = {key | ∃ word, Walked dfas word key}.ncard := by
  obtain ⟨invariant, -, -⟩ := exploreProduct_spec wellFormed
  rw [commonWord_eq wellFormed, Option.map_eq_none_iff] at nothing
  have same : {key | ∃ word, Walked dfas word key} =
      {key | ∃ word, (product dfas).walk? (product dfas).start word = some key} := by
    ext key
    constructor
    · rintro ⟨word, walked⟩
      obtain ⟨first, -, walk⟩ := Walked.leads wellFormed walked
      exact ⟨first, walk⟩
    · rintro ⟨word, walk⟩
      exact ⟨word, walked_of_walk? wellFormed walk⟩
  rw [same, invariant.ncard_reached nothing]
  rfl

/-- At every turn of a search over the automata of expressions, each word takes all automata to its
    tuple and is the least that does, no tuple is met twice, and the tuples met are at most as many
    as there are. The words leave the queue in ascending order. The search goes on to an end after
    which there is no turn. A word found is shorter than the number of tuples met, and if there is
    none that number, which is recorded, is that of the tuples to which words lead. -/
theorem search_loop (regexes : List Regex) :
    let dfas := regexes.map fun regex => ofNfa (Nfa.ofRegex regex)
    let reached := Relation.ReflTransGen (Turn dfas) (.initial (product dfas))
    (∀ exploration, reached exploration → Searched dfas exploration) ∧
    (∀ exploration later, reached exploration → Relation.TransGen (Turn dfas) exploration later →
      ∀ first second, exploration.pending? = some first → later.pending? = some second →
        Precedes first.word second.word) ∧
    (∀ exploration, reached exploration →
      Relation.ReflTransGen (Turn dfas) exploration (exploreProduct dfas)) ∧
    (∀ next, ¬ Turn dfas (exploreProduct dfas) next) ∧
    (search dfas).met ≤ (dfas.map size).prod ∧
    (∀ word, commonWord dfas = some word → word.length < (search dfas).met) ∧
    (commonWord dfas = none →
      Record.ofSearch (search dfas) = .noWord {key | ∃ word, Walked dfas word key}.ncard) := by
  intro dfas reached
  have wellFormed : ∀ dfa, dfa ∈ dfas → dfa.WellFormed := wellFormed_ofRegexes regexes
  have ordered := product_ordered wellFormed
  obtain ⟨final, -, ended⟩ := exploreProduct_spec wellFormed
  have invariant : ∀ exploration, reached exploration → exploration.Invariant (product dfas) :=
    fun exploration turns =>
      ((Exploration.invariant_initial (product dfas)).turns ordered turns).invariant
  refine ⟨?_, ?_, fun _ turns => turns_exploreProduct wellFormed turns, ?_, ?_,
    fun _ found => length_lt_met wellFormed found, ?_⟩
  · intro exploration turns
    exact searched_of_invariant wellFormed (invariant exploration turns)
  · intro exploration later turns onward first second due next
    exact (invariant exploration turns).due_precedes ordered onward due next
  · intro next
    exact ended.not_turn
  · exact (searched_of_invariant wellFormed final).bounded
  · intro nothing
    have none : (search dfas).word = none := nothing
    rw [Record.ofSearch, none, met_eq_ncard wellFormed nothing]

end CommonWord.Dfa
