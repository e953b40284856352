import CommonWord.Proofs.Meanings
import CommonWord.Proofs.Subsets

/-!
Whether an expression admits the empty word.

The expression itself tells, operand by operand. So do both of its automata, which have read nothing
yet and accept only if the start does or empty moves lead from it to a state that does.
-/

namespace CommonWord

namespace Regex

/-- A chain admits the empty word if its head does and each of its operands. -/
private theorem nullable_chain (head : Regex) (operands : List Regex) :
    (chain head operands).nullable = (head.nullable && operands.all nullable) := by
  induction operands generalizing head with
  | nil => simp [chain]
  | cons operand operands ih =>
    change (chain (concat head operand) operands).nullable = _
    rw [ih, nullable, List.all_cons, Bool.and_comm operand.nullable, Bool.and_assoc]

end Regex

namespace Dfa

/-- The start accepts exactly where the expression admits the empty word. -/
theorem accepting_start_ofRegex (regex : Regex) :
    (ofNfa (Nfa.ofRegex regex)).accepting (ofNfa (Nfa.ofRegex regex)).start = regex.nullable := by
  rw [Bool.eq_iff_iff, Regex.nullable_iff]
  exact accepts_iff_mem_language regex []

private theorem exists_start_ofRegex (regex : Regex) :
    ∃ state, (ofNfa (Nfa.ofRegex regex)).states[(ofNfa (Nfa.ofRegex regex)).start]? = some state ∧
      state.accepting = regex.nullable := by
  have inside := (wellFormed_ofNfa (Nfa.wellFormed_ofRegex regex)).start_lt
  have accepting := accepting_start_ofRegex regex
  rw [Dfa.accepting, Array.getElem?_eq_getElem inside] at accepting
  exact ⟨_, Array.getElem?_eq_getElem inside, accepting⟩

end Dfa

namespace Regex

/-- An expression is nullable, which is asked of the head of its spine and of each operand after it,
    exactly if the empty word belongs to its language. Its automaton accepts the empty word then and
    only then, and so does the start of the deterministic automaton, of which there is one. -/
theorem nullable_agrees (regex : Regex) :
    let (head, operands) := regex.spine
    regex.nullable = (head.nullable && operands.all nullable) ∧
    (regex.nullable = true ↔ [] ∈ regex.language) ∧
    (regex.nullable = true ↔ (Nfa.ofRegex regex).accepts [] = true) ∧
    ∃ state, (Dfa.ofNfa (Nfa.ofRegex regex)).states[(Dfa.ofNfa (Nfa.ofRegex regex)).start]? =
      some state ∧ (regex.nullable = true ↔ state.accepting = true) := by
  have whole : chain regex.spine.1 regex.spine.2 = regex := chain_spineOnto regex []
  obtain ⟨state, place, accepting⟩ := Dfa.exists_start_ofRegex regex
  refine ⟨?_, nullable_iff regex, ?_, state, place, by rw [accepting]⟩
  · rw [← nullable_chain]
    exact (congrArg nullable whole).symm
  · rw [nullable_iff, Nfa.accepts_ofRegex_iff]

end Regex

end CommonWord
