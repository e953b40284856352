import CommonWord.Proofs.Liveness
import CommonWord.Proofs.StateProperties
import CommonWord.Proofs.Transcripts
import CommonWord.Regex.Nodes

/-!
The shape of the automaton of an expression.

A state with a labelled edge has no other steps, and only accepting states get moves after they are
made. They have at most one move then and accept no more, so no state ever has more than two. A
fragment is entered at its start, from which paths lead to all of its states.
-/

namespace CommonWord.Nfa

/-! ### The steps out of a state -/

/-- How the steps out of a state look when the state has this number. -/
structure State.Shaped (state : State) (number : Nat) : Prop where
  edge : ∀ c target, state.edge = some (c, target) →
    state.accepting = false ∧ state.moves = [] ∧ target + 1 = number
  moves : state.moves.length ≤ 2
  accepting : state.accepting = true → state.moves.length ≤ 1

/-- The steps out of all states look so. -/
def Shaped (arena : Arena) : Prop :=
  ∀ (number : Nat) (state : State), arena[number]? = some state → state.Shaped number

private theorem shaped_empty : Shaped #[] := by simp [Shaped]

theorem lasting_shaped : Lasting fun number state => state.Shaped number := by
  constructor
  case accept => exact fun _ => ⟨by simp, by simp, by simp⟩
  case letter =>
    intro number c
    refine ⟨?_, by simp, by simp⟩
    intro d target edge
    obtain ⟨rfl, rfl⟩ := Prod.mk.inj (Option.some.inj edge)
    exact ⟨rfl, rfl, rfl⟩
  case union => exact fun _ _ _ => ⟨by simp, by simp, by simp⟩
  case star => exact fun _ _ => ⟨by simp, by simp, by simp⟩
  case redirect =>
    intro number state target shape accepted _
    have few := shape.accepting accepted
    refine ⟨fun c next edge => ?_, ?_, by simp⟩
    · rw [(shape.edge c next edge).1] at accepted
      contradiction
    · rw [List.length_append, List.length_singleton]
      omega

section

variable {nfa : Nfa} (shaped : Shaped nfa.states)

include shaped

private theorem Shaped.of_edge {source target : Nat} {c : Char}
    (step : nfa.edge? source = some (c, target)) :
    nfa.accepting source = false ∧ nfa.moves source = [] ∧ target + 1 = source := by
  obtain ⟨state, place, edge⟩ := Option.bind_eq_some_iff.mp step
  rw [Nfa.accepting, Nfa.moves, place]
  exact (shaped source state place).edge c target edge

private theorem Shaped.length_moves (number : Nat) : (nfa.moves number).length ≤ 2 := by
  rw [Nfa.moves]
  cases place : nfa.states[number]? with
  | none => simp
  | some state => exact (shaped number state place).moves

private theorem Shaped.length_moves_of_accepting {number : Nat}
    (accepts : nfa.accepting number = true) : (nfa.moves number).length ≤ 1 := by
  obtain ⟨state, place, accepting⟩ := accepting_iff_exists.mp accepts
  rw [Nfa.moves, place]
  exact (shaped number state place).accepting accepting

end

namespace Fragment

/-- The fragments of an expression are made up of such states. -/
theorem shaped_ofRegex (regex : Regex) {arena : Arena} (shaped : Shaped arena) :
    Shaped (ofRegex regex arena).arena :=
  lasting_shaped.ofRegex regex shaped

/-- A letter takes two states and every other node one, but for concatenations. -/
theorem size_ofRegex (regex : Regex) (arena : Arena) :
    (ofRegex regex arena).arena.size = arena.size + (2 * regex.letters.length +
      regex.nodes.countP Regex.isEpsilon + regex.nodes.countP Regex.isUnion +
      regex.nodes.countP Regex.isStar) := by
  induction regex generalizing arena with
  | epsilon => simp [ofRegex, ofEpsilon, Regex.nodes, Regex.isEpsilon, Regex.isUnion, Regex.isStar]
  | char c => simp [ofRegex, ofChar, Regex.nodes, Regex.isEpsilon, Regex.isUnion, Regex.isStar]
  | concat l r leftIh rightIh =>
    simp only [ofRegex, andThen, size_redirect, rightIh, leftIh]
    simp [Regex.nodes, Regex.isEpsilon, Regex.isUnion, Regex.isStar]
    omega
  | union l r leftIh rightIh =>
    simp only [ofRegex, ofUnion, Array.size_push, rightIh, leftIh]
    simp [Regex.nodes, List.countP_cons, Regex.isEpsilon, Regex.isUnion, Regex.isStar]
    omega
  | star x ih =>
    simp only [ofRegex, ofStar, size_redirect, Array.size_push, ih]
    simp [Regex.nodes, List.countP_cons, Regex.isEpsilon, Regex.isUnion, Regex.isStar]
    omega

end Fragment

/-! ### Paths from the start -/

/-- Paths lead from the start to all states from one number up to another. -/
def Spans (nfa : Nfa) (low high start : Nat) : Prop :=
  ∀ state, low ≤ state → state < high → ∃ word, nfa.Path start word state

theorem Spans.of_alike {nfa other : Nfa} {low high start : Nat} (spans : nfa.Spans low high start)
    (keeps : nfa.Keeps low high) (alike : nfa.Alike other low high)
    (inside : low ≤ start ∧ start < high) : other.Spans low high start := by
  intro state above below
  obtain ⟨word, path⟩ := spans state above below
  exact ⟨word, (path.of_alike keeps alike inside.1 inside.2).1⟩

/-- A new state leads to all states when its steps lead to those before it. -/
private theorem Spans.push {arena : Arena} {new : State} {low : Nat}
    (onward : ∀ state, low ≤ state → state < arena.size →
      ∃ word, Path ⟨arena.push new, 0⟩ arena.size word state) :
    Spans ⟨arena.push new, 0⟩ low (arena.push new).size arena.size := by
  intro state above below
  rw [Array.size_push] at below
  rcases Nat.lt_succ_iff_lt_or_eq.mp below with inside | rfl
  · exact onward state above inside
  · exact ⟨[], .stay arena.size⟩

private theorem Spans.redirect {nfa other : Nfa} {low high start target : Nat} {sources : List Nat}
    (spans : nfa.Spans low high start) (redirects : nfa.Redirects other sources target) :
    other.Spans low high start := by
  intro state above below
  obtain ⟨word, path⟩ := spans state above below
  exact ⟨word, redirects.path path⟩

namespace Fragment

section

variable {before middle after : Arena} {start next : Nat} {accepts others : List Nat}
  {first second : Language Char}
  (left : Block before middle start accepts first) (right : Block middle after next others second)
  (leftSpans : Spans ⟨middle, 0⟩ before.size middle.size start)
  (rightSpans : Spans ⟨after, 0⟩ middle.size after.size next)

private theorem spans_epsilon (arena : Arena) : Spans ⟨arena.push ⟨true, none, []⟩, 0⟩ arena.size
    (arena.push ⟨true, none, []⟩).size arena.size :=
  Spans.push fun state above below => absurd above (by omega)

include left leftSpans

private theorem Block.spans_letter (c : Char) :
    Spans ⟨middle.push ⟨false, some (c, start), []⟩, 0⟩ before.size
      (middle.push ⟨false, some (c, start), []⟩).size middle.size := by
  have older := leftSpans.of_alike left.part.keeps
    (alike_push middle ⟨false, some (c, start), []⟩ before.size 0 0) left.start_mem
  refine Spans.push fun state above below => ?_
  obtain ⟨word, path⟩ := older state above below
  exact ⟨c :: word, .edge (edge?_push ..) path⟩

include right rightSpans

private theorem Block.spans_union :
    Spans ⟨after.push ⟨false, none, [start, next]⟩, 0⟩ before.size
      (after.push ⟨false, none, [start, next]⟩).size after.size := by
  obtain ⟨rightLow, rightHigh⟩ := right.start_mem
  have older := alike_push after ⟨false, none, [start, next]⟩ 0 0 0
  have leftNow : Alike ⟨middle, 0⟩ ⟨after.push ⟨false, none, [start, next]⟩, 0⟩
      before.size middle.size := fun state above below =>
    (right.left_alike before.size state above below).trans
      (older state (Nat.zero_le _) (by omega))
  have fromLeft := leftSpans.of_alike left.part.keeps leftNow left.start_mem
  have fromRight := rightSpans.of_alike right.part.keeps
    (fun state _ => older state (Nat.zero_le _)) right.start_mem
  refine Spans.push fun state above below => ?_
  rcases Nat.lt_or_ge state middle.size with inLeft | inRight
  · obtain ⟨word, path⟩ := fromLeft state above inLeft
    exact ⟨word, .move (by simp) path⟩
  · obtain ⟨word, path⟩ := fromRight state inRight below
    exact ⟨word, .move (by simp) path⟩

private theorem Block.spans_andThen (leftLive : Live ⟨middle, 0⟩ before.size middle.size accepts) :
    Spans ⟨redirect accepts next after, 0⟩ before.size (redirect accepts next after).size
      start := by
  obtain ⟨rightLow, rightHigh⟩ := right.start_mem
  have alike := right.left_alike before.size
  have inside : ∀ state, state ∈ accepts → state < after.size := left.accepts_lt (by omega)
  have redirects := redirects_redirect inside next 0 0
  have fromLeft := (leftSpans.of_alike left.part.keeps alike left.start_mem).redirect redirects
  have fromRight := rightSpans.redirect redirects
  -- A path through the first fragment goes on by the move from one of its accepting states.
  obtain ⟨through, last, member, path⟩ :=
    (leftLive.of_alike left.part.keeps alike) start left.start_mem.1 left.start_mem.2
  have across := (redirects.path path).append
    (.move ((redirects.moves last next).mpr (.inr ⟨member, rfl⟩)) (.stay next))
  rw [size_redirect]
  intro state above below
  rcases Nat.lt_or_ge state middle.size with inLeft | inRight
  · exact fromLeft state above inLeft
  · obtain ⟨word, onward⟩ := fromRight state inRight below
    exact ⟨_, across.append onward⟩

omit right rightSpans in
private theorem Block.spans_star :
    Spans ⟨redirect accepts middle.size (middle.push ⟨true, none, [start]⟩), 0⟩ before.size
      (redirect accepts middle.size (middle.push ⟨true, none, [start]⟩)).size middle.size := by
  have inside : ∀ state, state ∈ accepts →
      state < (middle.push (⟨true, none, [start]⟩ : State)).size := left.accepts_lt (by simp)
  have older := leftSpans.of_alike left.part.keeps
    (alike_push middle ⟨true, none, [start]⟩ before.size 0 0) left.start_mem
  rw [size_redirect]
  refine (Spans.push fun state above below => ?_).redirect
    (redirects_redirect inside middle.size 0 0)
  obtain ⟨word, path⟩ := older state above below
  exact ⟨word, .move (by simp) path⟩

end

/-- Paths lead from the start of a fragment to all of its states. -/
theorem spans_ofRegex (regex : Regex) (arena : Arena) :
    Spans ⟨(ofRegex regex arena).arena, 0⟩ arena.size (ofRegex regex arena).arena.size
      (ofRegex regex arena).start := by
  induction regex generalizing arena with
  | epsilon => exact spans_epsilon arena
  | char c =>
    simpa [ofRegex, ofChar] using (block_epsilon arena).spans_letter (spans_epsilon arena) c
  | concat l r leftIh rightIh =>
    exact (block_ofRegex l arena).spans_andThen (block_ofRegex r _) (leftIh arena) (rightIh _)
      (live_ofRegex l arena)
  | union l r leftIh rightIh =>
    exact (block_ofRegex l arena).spans_union (block_ofRegex r _) (leftIh arena) (rightIh _)
  | star x ih => exact (block_ofRegex x arena).spans_star (ih arena)

end Fragment

/-! ### The automaton of an expression -/

/-- The shape of the automaton of an expression. -/
structure ThompsonShape (nfa : Nfa) (regex : Regex) : Prop where
  /-- A letter takes two states and every other node one, but for concatenations. -/
  size : nfa.size = 2 * regex.letters.length + regex.nodes.countP Regex.isEpsilon +
    regex.nodes.countP Regex.isUnion + regex.nodes.countP Regex.isStar
  move_lt : ∀ source target, target ∈ nfa.moves source → target < nfa.size
  edge_lt : ∀ source c target, nfa.edge? source = some (c, target) → target < nfa.size
  /-- A state with a labelled edge has no other steps, and the edge leads to the state before it. -/
  edge : ∀ source c target, nfa.edge? source = some (c, target) →
    nfa.accepting source = false ∧ nfa.moves source = [] ∧ target + 1 = source
  moves : ∀ state, (nfa.moves state).length ≤ 2
  accepting_moves : ∀ state, nfa.accepting state = true → (nfa.moves state).length ≤ 1
  /-- The states that the construction lists are the accepting ones, each of them once. -/
  accepts_nodup : (Fragment.build regex #[]).accepts.Nodup
  accepts_iff : ∀ state, state ∈ (Fragment.build regex #[]).accepts ↔ nfa.accepting state = true
  /-- What is recorded of the construction has the number of states and of those that accept. -/
  recorded : ((Recording.buildNfa regex).run #[]).2 =
    #[.nfaBuilt regex nfa.size ((List.range nfa.size).countP nfa.accepting)]
  /-- Every state is on a path from the start to an accepting state. -/
  on_path : ∀ state, state < nfa.size → ∃ word rest target, nfa.Path nfa.start word state ∧
    nfa.Path state rest target ∧ nfa.accepting target = true

/-- The automaton of every expression has this shape. -/
theorem thompsonShape_ofRegex (regex : Regex) : ThompsonShape (ofRegex regex) regex := by
  have wellFormed := wellFormed_ofRegex regex
  have part := (Fragment.block_ofRegex regex #[]).part
  have built : ofRegex regex = (Fragment.ofRegex regex #[]).nfa := by
    rw [ofRegex, Fragment.build_eq_ofRegex]
  have shaped : Shaped (ofRegex regex).states := built ▸ Fragment.shaped_ofRegex regex shaped_empty
  constructor
  case size => rw [built, Nfa.size, Fragment.nfa, Fragment.size_ofRegex, Array.size_empty, zero_add]
  case move_lt => exact wellFormed.move_lt
  case edge_lt => exact wellFormed.edge_lt
  case edge => exact fun _ _ _ step => shaped.of_edge step
  case moves => exact shaped.length_moves
  case accepting_moves => exact fun _ accepts => shaped.length_moves_of_accepting accepts
  case accepts_nodup =>
    rw [Fragment.build_eq_ofRegex]
    exact Fragment.nodup_accepts regex #[]
  case accepts_iff =>
    intro state
    rw [Fragment.build_eq_ofRegex, built]
    refine ⟨fun member => part.accepting member, fun accepting => ?_⟩
    obtain ⟨_, place, -⟩ := accepting_iff_exists.mp accepting
    have inside := (Array.getElem?_eq_some_iff.mp place).1
    exact (part.accepting_iff state (Nat.zero_le _) inside).mp accepting
  case recorded =>
    rw [StateT.run, Recording.leaves_buildNfa, List.countP_eq_length_filter]
    simp
  case on_path =>
    intro state inside
    obtain ⟨rest, target, onward, accepting⟩ := exists_accepting_ahead regex inside
    rw [built] at inside
    obtain ⟨word, path⟩ := Fragment.spans_ofRegex regex #[] state (Nat.zero_le _) inside
    exact ⟨word, rest, target, built ▸ path_restart path, onward, accepting⟩

end CommonWord.Nfa
