import CommonWord.Proofs.Discoveries
import CommonWord.Proofs.Products
import CommonWord.Transcript

/-!
Neither the order of the automata nor how often each occurs matters to the search.

Two words lead to the same tuple when every automaton takes them to the same state, which says
nothing of the places of the automata in the list. So searches over the same automata meet their
tuples by the same words, although the tuples themselves may differ in width and order.
-/

namespace CommonWord.Dfa

open Word

variable {dfas first second : List Dfa}

/-! ### Words that lead to the same tuple -/

private theorem Walked.also_iff {word : List Char} {key : Key} (walked : Walked dfas word key)
    (other : List Char) : Walked dfas other key ↔
      ∀ dfa, dfa ∈ dfas → dfa.walk? dfa.start other = dfa.walk? dfa.start word := by
  induction walked with
  | nil => exact iff_of_true .nil (by simp)
  | @cons dfa state dfas states head tail ih =>
    rw [List.forall_mem_cons, ← ih, head, Walked, List.forall₂_cons]
    rfl

/-- A word is the least one that leads to some tuple when it takes every automaton somewhere and no
    earlier word takes every automaton to the same state. -/
private theorem leading_product_iff (wellFormed : ∀ dfa, dfa ∈ dfas → dfa.WellFormed)
    (nonempty : dfas ≠ []) (word : List Char) : (product dfas).Leading word ↔
      (∀ dfa, dfa ∈ dfas → ∃ state, dfa.walk? dfa.start word = some state) ∧
      ∀ other, (∀ dfa, dfa ∈ dfas → dfa.walk? dfa.start other = dfa.walk? dfa.start word) →
        other ≠ word → Precedes word other := by
  simp only [Graph.Leading, Word.IsLeast, product_walk?_iff wellFormed nonempty]
  rw [← exists_walked_iff]
  constructor
  · rintro ⟨key, walked, least⟩
    exact ⟨⟨key, walked⟩, fun other alike => least other ((walked.also_iff other).mpr alike)⟩
  · rintro ⟨⟨key, walked⟩, least⟩
    exact ⟨key, walked, fun other also => least other ((walked.also_iff other).mp also)⟩

/-! ### Searches over the same automata -/

private theorem search_eq (dfas : List Dfa) :
    search dfas = ⟨commonWord dfas, (exploreProduct dfas).words.length⟩ := by
  simp [commonWord, search, Exploration.words]

section
variable (wellFormed : ∀ dfa, dfa ∈ first → dfa.WellFormed)
  (also : ∀ dfa, dfa ∈ second → dfa.WellFormed) (same : ∀ dfa, dfa ∈ first ↔ dfa ∈ second)

include wellFormed also same

private theorem leading_product_congr (nonempty : first ≠ []) (word : List Char) :
    (product first).Leading word ↔ (product second).Leading word := by
  have some : second ≠ [] := by
    obtain ⟨dfa, member⟩ := List.exists_mem_of_ne_nil first nonempty
    exact List.ne_nil_of_mem ((same dfa).mp member)
  rw [leading_product_iff wellFormed nonempty, leading_product_iff also some]
  simp only [same]

theorem commonWord_congr : commonWord first = commonWord second := by
  have common : ∀ word, Common first word ↔ Common second word := fun word => by
    simp only [Common, same]
  apply Option.ext
  intro word
  rw [commonWord_eq_some_iff wellFormed, commonWord_eq_some_iff also]
  simp only [Word.IsLeast, common]

/-- The searches meet their tuples by the same words. -/
private theorem words_exploreProduct_congr (nonempty : first ≠ []) :
    (exploreProduct first).words = (exploreProduct second).words := by
  apply (exploreProduct_spec wellFormed).1.words_eq (exploreProduct_spec also).1
  · exact leading_product_congr wellFormed also same nonempty
  · rw [← commonWord_eq wellFormed, ← commonWord_eq also]
    exact commonWord_congr wellFormed also same

theorem search_congr : search first = search second := by
  by_cases nonempty : first = []
  · subst nonempty
    obtain rfl : second = [] := List.eq_nil_iff_forall_not_mem.mpr fun dfa member =>
      List.not_mem_nil ((same dfa).mpr member)
    rfl
  · have words := words_exploreProduct_congr wellFormed also same nonempty
    calc search first
        = ⟨commonWord first, (exploreProduct first).words.length⟩ := search_eq first
      _ = ⟨commonWord second, (exploreProduct second).words.length⟩ := by
        rw [words, commonWord_congr wellFormed also same]
      _ = search second := (search_eq second).symm

end

/-- Searches over lists of the same automata of expressions, in whatever order and each however
    often, find the same word after they have met equally many tuples, and so leave the same
    record. -/
theorem search_eq_of_same_members
    (built : ∀ dfa, dfa ∈ first → ∃ regex, dfa = ofNfa (Nfa.ofRegex regex))
    (same : ∀ dfa, dfa ∈ first ↔ dfa ∈ second) :
    commonWord first = commonWord second ∧ (search first).met = (search second).met ∧
      Record.ofSearch (search first) = Record.ofSearch (search second) := by
  have wellFormed : ∀ dfa, dfa ∈ first → dfa.WellFormed := by
    intro dfa member
    obtain ⟨regex, rfl⟩ := built dfa member
    exact wellFormed_ofNfa (Nfa.wellFormed_ofRegex regex)
  have equal := search_congr wellFormed
    (fun dfa member => wellFormed dfa ((same dfa).mpr member)) same
  exact ⟨congrArg Outcome.word equal, congrArg Outcome.met equal, congrArg Record.ofSearch equal⟩

/-- Two expressions, and the same two with the second one put first and repeated at the end. -/
theorem search_eq_of_two_and_three :
    let ends := ofNfa (Nfa.ofRegex (.concat (.star (.union (.char 'a') (.char 'b'))) (.char 'b')))
    let pairs := ofNfa (Nfa.ofRegex (.star (.concat (.char 'a') (.char 'b'))))
    (∀ dfa, dfa ∈ [ends, pairs] → ∃ regex, dfa = ofNfa (Nfa.ofRegex regex)) ∧
    (∀ dfa, dfa ∈ [ends, pairs] ↔ dfa ∈ [pairs, ends, pairs]) ∧
    commonWord [ends, pairs] = commonWord [pairs, ends, pairs] ∧
      (search [ends, pairs]).met = (search [pairs, ends, pairs]).met ∧
      Record.ofSearch (search [ends, pairs]) = Record.ofSearch (search [pairs, ends, pairs]) := by
  intro ends pairs
  have built : ∀ dfa, dfa ∈ [ends, pairs] → ∃ regex, dfa = ofNfa (Nfa.ofRegex regex) := by
    intro dfa member
    rcases List.mem_pair.mp member with rfl | rfl
    · exact ⟨_, rfl⟩
    · exact ⟨_, rfl⟩
  have same : ∀ dfa, dfa ∈ [ends, pairs] ↔ dfa ∈ [pairs, ends, pairs] := by
    intro dfa
    simp only [List.mem_cons, List.not_mem_nil, or_false]
    tauto
  exact ⟨built, same, search_eq_of_same_members built same⟩

end CommonWord.Dfa
