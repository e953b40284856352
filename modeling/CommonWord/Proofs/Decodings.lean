import CommonWord.Proofs.Placements
import CommonWord.Proofs.Shapes

/-!
An automaton tells from which expression it was built, but for how concatenations are associated.

The fragment of what is no concatenation ends with the state that it starts in, so in the fragment
of a concatenation the start tells where the head ends. The redirected states are those with a move
out of the head, so redirecting can be undone. What can be reached from its start tells where the
left operand of a union ends.
-/

namespace CommonWord.Nfa

open Regex (Reassociates)

/-! ### Where one block ends -/

/-- No step leads out of a block, so it ends no earlier than what its start leads to. -/
private theorem Spans.le_of_keeps {nfa : Nfa} {low middle high start : Nat}
    (spans : nfa.Spans low high start) (keeps : nfa.Keeps low middle)
    (inside : low ≤ start ∧ start < middle) : high ≤ middle := by
  by_contra longer
  obtain ⟨low_le, lt_middle⟩ := inside
  obtain ⟨word, path⟩ := spans middle (by omega) (by omega)
  have stays := (path.of_alike keeps (fun _ _ _ => rfl) low_le lt_middle).2
  omega

/-- Arenas of the same size that another one begins with are the same. -/
private theorem eq_of_alike {first second whole : Arena}
    (left : Alike ⟨first, 0⟩ ⟨whole, 0⟩ 0 first.size)
    (right : Alike ⟨second, 0⟩ ⟨whole, 0⟩ 0 second.size) (size : first.size = second.size) :
    first = second := by
  apply Array.ext_getElem?
  intro state
  rcases Nat.lt_or_ge state first.size with inside | outside
  · exact (left state (Nat.zero_le _) inside).trans
      (right state (Nat.zero_le _) (size ▸ inside)).symm
  · rw [Array.getElem?_eq_none outside, Array.getElem?_eq_none (size ▸ outside)]

/-! ### Undoing a redirection -/

/-- These states accept, each is listed once, and none of them or of those around them has a move to
    the target. -/
structure Redirectable (arena : Arena) (low high : Nat) (accepts : List Nat) (target : Nat) :
    Prop where
  once : accepts.Nodup
  inside : ∀ state, state ∈ accepts → low ≤ state ∧ state < high
  accepting : ∀ state, state ∈ accepts → accepting ⟨arena, 0⟩ state = true
  free : ∀ state, low ≤ state → state < high → target ∉ moves ⟨arena, 0⟩ state

section

variable {first second : Arena} {low high target : Nat} {accepts others : List Nat}

private theorem Redirectable.exists_state (fit : Redirectable first low high accepts target)
    {state : Nat}
    (member : state ∈ accepts) : ∃ own, first[state]? = some own ∧ own.accepting = true :=
  accepting_iff_exists.mp (fit.accepting state member)

/-- The redirected states are told by their moves. -/
private theorem Redirectable.mem_iff (fit : Redirectable first low high accepts target)
    {state : Nat} (above : low ≤ state) (below : state < high) :
    state ∈ accepts ↔ target ∈ moves ⟨Fragment.redirect accepts target first, 0⟩ state := by
  have inside : ∀ state, state ∈ accepts → state < first.size := by
    intro state member
    obtain ⟨own, place, -⟩ := fit.exists_state member
    exact (Array.getElem?_eq_some_iff.mp place).1
  rw [(redirects_redirect inside target 0 0).moves]
  simp [fit.free state above below]

private theorem Redirectable.cancel (left : Redirectable first low high accepts target)
    (right : Redirectable second low high others target)
    (same : Fragment.redirect accepts target first = Fragment.redirect others target second) :
    first = second := by
  have members : ∀ state, state ∈ accepts ↔ state ∈ others := by
    intro state
    constructor
    · intro member
      obtain ⟨above, below⟩ := left.inside state member
      exact (right.mem_iff above below).mpr (same ▸ (left.mem_iff above below).mp member)
    · intro member
      obtain ⟨above, below⟩ := right.inside state member
      exact (left.mem_iff above below).mpr (same ▸ (right.mem_iff above below).mp member)
  apply Array.ext_getElem?
  intro state
  have here := congrArg (fun arena : Arena => arena[state]?) same
  simp only [Fragment.getElem?_redirect] at here
  by_cases member : state ∈ accepts
  · have also := (members state).mp member
    obtain ⟨own, place, accepting⟩ := left.exists_state member
    obtain ⟨other, found, accepted⟩ := right.exists_state also
    rw [place, found, List.count_eq_one_of_mem left.once member,
      List.count_eq_one_of_mem right.once also] at here
    obtain ⟨ownAccepts, ownEdge, ownMoves⟩ := own
    obtain ⟨otherAccepts, otherEdge, otherMoves⟩ := other
    obtain rfl : ownAccepts = true := accepting
    obtain rfl : otherAccepts = true := accepted
    rw [place, found]
    simpa [member, also] using here
  · have absent : state ∉ others := fun also => member ((members state).mpr also)
    simpa [member, absent, List.count_eq_zero.mpr member, List.count_eq_zero.mpr absent] using here

end

/-! ### Fragments -/

namespace Fragment

/-- A redirected fragment: the states that accepted are told apart from all others in its block. -/
private theorem Block.redirectable {before middle whole : Arena} {start target : Nat}
    {accepts : List Nat}
    {language : Language Char} (block : Block before middle start accepts language)
    (once : accepts.Nodup) (alike : Alike ⟨middle, 0⟩ ⟨whole, 0⟩ before.size middle.size)
    (outside : middle.size ≤ target) :
    Redirectable whole before.size middle.size accepts target := by
  have part := block.part.of_alike alike
  refine ⟨once, part.accepts_mem, fun state => part.accepting, fun state above below step => ?_⟩
  have := (part.keeps.move state above below target step).2
  omega

/-- The fragment of a concatenation, and of no other expression, ends after its start. -/
theorem isConcat_iff (regex : Regex) (arena : Arena) : regex.isConcat = true ↔
    (ofRegex regex arena).start + 1 < (ofRegex regex arena).arena.size := by
  cases regex with
  | concat l r =>
    have left := (block_ofRegex l arena).start_mem
    have right := (block_ofRegex r (ofRegex l arena).arena).start_mem
    refine iff_of_true rfl ?_
    simp only [ofRegex, andThen, size_redirect]
    omega
  | _ => simp [Regex.isConcat, ofRegex, ofEpsilon, ofChar, ofUnion, ofStar]

/-- The state in which the fragment of what is no concatenation starts. -/
def startState (arena : Arena) : Regex → State
  | .epsilon => ⟨true, none, []⟩
  | .char c => ⟨false, some (c, arena.size), []⟩
  | .union l r =>
    ⟨false, none, [(ofRegex l arena).start, (ofRegex r (ofRegex l arena).arena).start]⟩
  | .star x => ⟨true, none, [(ofRegex x arena).start]⟩
  | .concat _ _ => default

private theorem getElem?_start {regex : Regex} (plain : regex.isConcat = false) (arena : Arena) :
    (ofRegex regex arena).arena[(ofRegex regex arena).start]? = some (startState arena regex) := by
  cases regex with
  | epsilon => simp [ofRegex, ofEpsilon, startState]
  | char c =>
    simp only [ofRegex, ofChar, startState]
    rw [Array.getElem?_push, if_pos (by simp)]
  | concat l r => contradiction
  | union l r => simp [ofRegex, ofUnion, startState]
  | star x =>
    have absent : (ofRegex x arena).arena.size ∉ (ofRegex x arena).accepts :=
      (block_ofRegex x arena).part.not_mem (.inr (Nat.le_refl _))
    simp only [ofRegex, ofStar, startState]
    rw [getElem?_redirect_of_not_mem absent, Array.getElem?_push_size]

/-- What has the same fragment as another expression, wherever it is built, differs from it only in
    association. -/
def Decodes (regex : Regex) : Prop :=
  ∀ (other : Regex) (arena : Arena),
    (ofRegex regex arena).arena = (ofRegex other arena).arena →
    (ofRegex regex arena).start = (ofRegex other arena).start → Reassociates regex other

section

variable {regex other : Regex} {arena : Arena}
  (same : (ofRegex regex arena).arena = (ofRegex other arena).arena)
  (starts : (ofRegex regex arena).start = (ofRegex other arena).start)

include same starts

private theorem isConcat_eq : regex.isConcat = other.isConcat := by
  rw [Bool.eq_iff_iff, isConcat_iff regex arena, isConcat_iff other arena, same, starts]

private theorem startState_eq (plain : regex.isConcat = false) :
    startState arena regex = startState arena other := by
  have also : other.isConcat = false := isConcat_eq same starts ▸ plain
  rw [← Option.some_inj, ← getElem?_start plain, ← getElem?_start also, same, starts]

end

private theorem decodes_epsilon : Decodes .epsilon := by
  intro other arena same starts
  have plain := isConcat_eq same starts
  have state := startState_eq same starts rfl
  cases other with
  | epsilon => exact .refl _
  | concat l r => contradiction
  | _ => simp [startState] at state

private theorem decodes_char (c : Char) : Decodes (.char c) := by
  intro other arena same starts
  have plain := isConcat_eq same starts
  have state := startState_eq same starts rfl
  cases other with
  | char d =>
    obtain rfl : c = d := by simpa [startState] using state
    exact .refl _
  | concat l r => contradiction
  | _ => simp [startState] at state

section

variable {left right l r : Regex} {arena : Arena}
  (whole : (ofRegex right (ofRegex left arena).arena).arena =
    (ofRegex r (ofRegex l arena).arena).arena)
  (starts : (ofRegex left arena).start = (ofRegex l arena).start)

include whole starts

/-- Of two fragments in front of others in one arena, none goes on where the other has ended when
    they start in the same state. -/
private theorem size_le_of_start :
    (ofRegex l arena).arena.size ≤ (ofRegex left arena).arena.size := by
  have first := block_ofRegex left arena
  have second := block_ofRegex l arena
  have leftAlike := (block_ofRegex right (ofRegex left arena).arena).left_alike arena.size
  have otherAlike := (block_ofRegex r (ofRegex l arena).arena).left_alike arena.size
  have spans := (spans_ofRegex l arena).of_alike second.part.keeps otherAlike second.start_mem
  rw [← whole, ← starts] at spans
  exact spans.le_of_keeps (first.part.keeps.of_alike leftAlike) first.start_mem

/-- Two fragments in one arena, one after the other, tell from which expressions they were built
    when it is known where the first ends and where both start. -/
private theorem Decodes.both (first : Decodes left) (second : Decodes right)
    (size : (ofRegex left arena).arena.size = (ofRegex l arena).arena.size)
    (later : (ofRegex right (ofRegex left arena).arena).start =
      (ofRegex r (ofRegex l arena).arena).start) :
    Reassociates left l ∧ Reassociates right r := by
  have leftFrame := (block_ofRegex right (ofRegex left arena).arena).frame
  have otherFrame := (block_ofRegex r (ofRegex l arena).arena).frame
  rw [← whole] at otherFrame
  have front := eq_of_alike leftFrame otherFrame size
  refine ⟨first l arena front starts, second r (ofRegex left arena).arena ?_ ?_⟩
  · rw [whole, front]
  · rw [later, front]

end

private theorem Decodes.union {left right : Regex} (first : Decodes left) (second : Decodes right) :
    Decodes (.union left right) := by
  intro other arena same starts
  have plain := isConcat_eq same starts
  have state := startState_eq same starts rfl
  cases other with
  | union l r =>
    obtain ⟨leftStarts, rightStarts⟩ : (ofRegex left arena).start = (ofRegex l arena).start ∧
        (ofRegex right (ofRegex left arena).arena).start =
          (ofRegex r (ofRegex l arena).arena).start := by simpa [startState] using state
    have whole : (ofRegex right (ofRegex left arena).arena).arena =
        (ofRegex r (ofRegex l arena).arena).arena := (Array.push_eq_push.mp same).2
    have size := Nat.le_antisymm (size_le_of_start whole.symm leftStarts.symm)
      (size_le_of_start whole leftStarts)
    obtain ⟨before, after⟩ := first.both whole leftStarts second size rightStarts
    exact before.union after
  | concat l r => contradiction
  | _ => simp [startState] at state

private theorem Decodes.star {inner : Regex} (inside : Decodes inner) : Decodes (.star inner) := by
  intro other arena same starts
  have plain := isConcat_eq same starts
  have state := startState_eq same starts rfl
  cases other with
  | star x =>
    have innerStarts : (ofRegex inner arena).start = (ofRegex x arena).start := by
      simpa [startState] using state
    have size : (ofRegex inner arena).arena.size = (ofRegex x arena).arena.size := starts
    have left := (block_ofRegex inner arena).redirectable (nodup_accepts inner arena)
      (alike_push (ofRegex inner arena).arena ⟨true, none, [(ofRegex inner arena).start]⟩ _ 0 0)
      (Nat.le_refl _)
    have right := (block_ofRegex x arena).redirectable (nodup_accepts x arena)
      (alike_push (ofRegex x arena).arena ⟨true, none, [(ofRegex x arena).start]⟩ _ 0 0)
      (Nat.le_refl _)
    rw [← size] at right
    have pushed := left.cancel right (by simpa [ofRegex, ofStar, size] using same)
    exact (inside x arena (Array.push_eq_push.mp pushed).2 innerStarts).star
  | concat l r => contradiction
  | _ => simp [startState] at state

/-- A fragment of what is no concatenation ends with the state that it starts in. -/
private theorem start_of_plain {regex : Regex} (plain : regex.isConcat = false) (arena : Arena) :
    (ofRegex regex arena).start + 1 = (ofRegex regex arena).arena.size := by
  have inside := (block_ofRegex regex arena).start_mem.2
  have last : ¬ (ofRegex regex arena).start + 1 < (ofRegex regex arena).arena.size := by
    rw [← isConcat_iff, plain]
    exact Bool.false_ne_true
  omega

/-- Some state of a fragment accepts. -/
private theorem exists_accepts (regex : Regex) (arena : Arena) :
    ∃ state, state ∈ (ofRegex regex arena).accepts := by
  obtain ⟨low, high⟩ := (block_ofRegex regex arena).start_mem
  obtain ⟨_, state, member, -⟩ := live_ofRegex regex arena _ low high
  exact ⟨state, member⟩

/-- Where a head was linked to is told by the move that leaves its block. -/
private theorem link_eq {head rest h r : Regex} {arena : Arena}
    (same : (ofRegex (.concat head rest) arena).arena = (ofRegex (.concat h r) arena).arena)
    (size : (ofRegex head arena).arena.size = (ofRegex h arena).arena.size) :
    (ofRegex rest (ofRegex head arena).arena).start =
      (ofRegex r (ofRegex h arena).arena).start := by
  have first := block_ofRegex head arena
  have second := block_ofRegex h arena
  have next := block_ofRegex rest (ofRegex head arena).arena
  have other := block_ofRegex r (ofRegex h arena).arena
  obtain ⟨last, member⟩ := exists_accepts head arena
  obtain ⟨above, below⟩ := first.part.accepts_mem last member
  have leaves : (ofRegex rest (ofRegex head arena).arena).start ∈
      moves ⟨(ofRegex (.concat head rest) arena).arena, 0⟩ last :=
    ((redirects_redirect (first.accepts_lt next.size_le) _ 0 0).moves _ _).mpr
      (.inr ⟨member, rfl⟩)
  rw [same] at leaves
  rcases ((redirects_redirect (second.accepts_lt other.size_le) _ 0 0).moves _ _).mp leaves with
    old | ⟨-, link⟩
  · have keeps := second.part.keeps.of_alike (other.left_alike arena.size)
    have := (keeps.move last above (size ▸ below) _ old).2
    have := next.start_mem.1
    omega
  · exact link

private theorem Decodes.concat {head rest : Regex} (plain : head.isConcat = false)
    (first : Decodes head) (second : Decodes rest) : Decodes (.concat head rest) := by
  intro other arena same starts
  have chain := isConcat_eq same starts
  rcases other.exists_head with single | ⟨h, r, associated, also, -, -⟩
  · rw [single] at chain
    contradiction
  rw [ofRegex_congr associated] at same starts
  have headStarts : (ofRegex head arena).start = (ofRegex h arena).start := starts
  have size : (ofRegex head arena).arena.size = (ofRegex h arena).arena.size := by
    rw [← start_of_plain plain, ← start_of_plain also, headStarts]
  have link := link_eq same size
  have next := block_ofRegex rest (ofRegex head arena).arena
  have otherNext := block_ofRegex r (ofRegex h arena).arena
  have left := (block_ofRegex head arena).redirectable (nodup_accepts head arena)
    (next.left_alike arena.size) next.start_mem.1
  have right := (block_ofRegex h arena).redirectable (nodup_accepts h arena)
    (otherNext.left_alike arena.size) otherNext.start_mem.1
  rw [← size, ← link] at right
  have whole := left.cancel right (by simpa [ofRegex, andThen, link] using same)
  obtain ⟨before, after⟩ := first.both whole headStarts second size link
  exact (before.concat after).trans associated.symm

private theorem Decodes.of_reassociates {regex chain : Regex}
    (associated : Reassociates regex chain) (decodes : Decodes chain) : Decodes regex := by
  intro other arena same starts
  rw [ofRegex_congr associated] at same starts
  exact associated.trans (decodes other arena same starts)

/-- What has the same fragment as an expression differs from it only in association. -/
theorem decodes (regex : Regex) : Decodes regex := by
  -- The rest of a chain is smaller than the chain, but need not be a part of it.
  induction size : sizeOf regex using Nat.strong_induction_on generalizing regex with
  | _ size ih =>
    subst size
    rcases regex.exists_head with plain | ⟨head, rest, associated, plain, headSmall, restSmall⟩
    · cases regex with
      | epsilon => exact decodes_epsilon
      | char c => exact decodes_char c
      | concat l r => contradiction
      | union l r =>
        have left := ih (sizeOf l) (by simp only [Regex.union.sizeOf_spec]; omega) l rfl
        have right := ih (sizeOf r) (by simp only [Regex.union.sizeOf_spec]; omega) r rfl
        exact left.union right
      | star x =>
        have inside := ih (sizeOf x) (by simp only [Regex.star.sizeOf_spec]; omega) x rfl
        exact inside.star
    · have first := ih (sizeOf head) headSmall head rfl
      have second := ih (sizeOf rest) restSmall rest rfl
      exact (Decodes.concat plain first second).of_reassociates associated

end Fragment

/-- Two expressions have the same automaton, with the same numbers, flags, edges and moves in the
    same order, exactly when they differ only in how concatenations in them are associated. -/
theorem ofRegex_eq_iff (first second : Regex) :
    ofRegex first = ofRegex second ↔ first.Reassociates second := by
  constructor
  · intro same
    rw [ofRegex, ofRegex, Fragment.build_eq_ofRegex, Fragment.build_eq_ofRegex] at same
    exact Fragment.decodes first second #[] (congrArg Nfa.states same) (congrArg Nfa.start same)
  · intro same
    rw [ofRegex, ofRegex, Fragment.build_eq_ofRegex, Fragment.build_eq_ofRegex,
      Fragment.ofRegex_congr same]

end CommonWord.Nfa
