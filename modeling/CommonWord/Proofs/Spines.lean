import CommonWord.Proofs.Fragments
import CommonWord.Regex.Printer

/-!
What is done along the spine of an expression is what plain recursion does.

An expression is the chain of its spine. So whatever goes down the left operands and keeps what is
to the right for later does the same as the rules that go into both operands of a concatenation,
and as a loop that begins with the head and takes the operands in turn.
-/

namespace CommonWord

namespace Regex

private theorem rebuild_eq (regex : Regex) : regex.rebuild = regex := rebuildOnto_eq_chain regex []

/-- How an operand is written after the head of a chain: in parentheses where it is a
    concatenation itself. -/
def renderOperand (operand : Regex) : List Char :=
  if operand.isConcat then '(' :: operand.render ++ [')'] else operand.render

private theorem render_concat (left right : Regex) :
    (concat left right).render = left.render ++ right.renderOperand := by
  simp only [renderOperand, render_eq, written]

/-- A chain is written as its head and then its operands in turn. -/
theorem render_chain (head : Regex) (operands : List Regex) :
    (chain head operands).render = head.render ++ operands.flatMap renderOperand := by
  induction operands generalizing head with
  | nil => simp [chain]
  | cons operand operands ih =>
    change (chain (concat head operand) operands).render = _
    rw [ih, render_concat, List.flatMap_cons, List.append_assoc]

end Regex

namespace Nfa.Fragment

open Regex

private theorem build_concat (left right : Regex) (arena : Arena) :
    build (.concat left right) arena = (build left arena).andThen (build right) := by
  have next : build right = ofRegex right := funext (build_eq_ofRegex right)
  rw [build_eq_ofRegex, build_eq_ofRegex, next, ofRegex]

/-- The fragment of a chain is that of its head, followed by those of its operands in turn. -/
theorem build_chain (head : Regex) (operands : List Regex) (arena : Arena) :
    build (chain head operands) arena =
      operands.foldl (fun fragment operand => fragment.andThen (build operand))
        (build head arena) := by
  induction operands generalizing head with
  | nil => rfl
  | cons operand operands ih =>
    change build (chain (concat head operand) operands) arena = _
    rw [ih, build_concat, List.foldl_cons]

end Nfa.Fragment

namespace Regex

open Nfa (Fragment)

/-- The spine of an expression is a head that is no concatenation, and the operands after it, of
    which the expression is the concatenation from the left. What is put together anew, written or
    built along the spine is done in a loop over the operands, and comes to the same as by plain
    recursion: the expression itself, its written form and its fragment at the end of any arena. -/
theorem spine_traversals (regex : Regex) :
    let (head, operands) := regex.spine
    (head.isConcat = false ∧ operands.foldl concat head = regex) ∧
    (regex.rebuild = (operands.map rebuild).foldl concat head.rebuild ∧ regex.rebuild = regex) ∧
    (regex.render = head.render ++ operands.flatMap renderOperand ∧
      regex.render = regex.written) ∧
    ∀ arena : Nfa.Arena,
      Fragment.build regex arena =
        operands.foldl (fun fragment operand => fragment.andThen (Fragment.build operand))
          (Fragment.build head arena) ∧
      Fragment.build regex arena = Fragment.ofRegex regex arena := by
  have whole : chain regex.spine.1 regex.spine.2 = regex := chain_spineOnto regex []
  have plain : regex.spine.1.isConcat = false := isConcat_spineOnto regex []
  generalize regex.spine = spine at whole plain ⊢
  obtain ⟨head, operands⟩ := spine
  refine ⟨⟨plain, whole⟩, ⟨?_, rebuild_eq regex⟩, ⟨?_, render_eq regex⟩,
    fun arena => ⟨?_, Fragment.build_eq_ofRegex regex arena⟩⟩
  · have copies : operands.map rebuild = operands := List.map_id'' rebuild_eq operands
    rw [copies, rebuild_eq, rebuild_eq]
    exact whole.symm
  · rw [← render_chain, whole]
  · rw [← Fragment.build_chain, whole]

end Regex

end CommonWord
