import CommonWord.Proofs.Fragments
import CommonWord.Regex.Association

/-!
A fragment is the same wherever it is built.

What is built at the end of an arena is what is built alone, with all numbers moved up by the size
of the arena. So nothing that is changed in the arena before it changes the fragment, and it does
not matter in which order concatenated fragments are linked. The fragment in turn changes nothing in
the arena and has no step into it.
-/

namespace CommonWord.Nfa

/-- The state with all numbers moved up. -/
def State.shift (offset : Nat) (state : State) : State where
  accepting := state.accepting
  edge := state.edge.map fun (c, target) => (c, offset + target)
  moves := state.moves.map (offset + ·)

namespace Fragment

/-- States placed after those of an arena. -/
def place (arena states : Arena) : Arena := arena ++ states.map (State.shift arena.size)

def placed (arena : Arena) (fragment : Fragment) : Fragment :=
  ⟨place arena fragment.arena, arena.size + fragment.start,
    fragment.accepts.map (arena.size + ·)⟩

section

variable (arena states : Arena)

@[simp] theorem size_place : (place arena states).size = arena.size + states.size := by
  simp [place]

@[simp] theorem place_empty : place arena #[] = arena := by
  simp [place]

private theorem place_push (new : State) :
    place arena (states.push new) = (place arena states).push (new.shift arena.size) := by
  simp [place]

/-- Placed states are redirected as they were where they stood. -/
private theorem place_redirect (accepts : List Nat) (target : Nat) :
    place arena (redirect accepts target states) =
      redirect (accepts.map (arena.size + ·)) (arena.size + target) (place arena states) := by
  apply Array.ext_getElem?
  intro number
  rcases Nat.lt_or_ge number arena.size with before | after
  · have absent : number ∉ accepts.map (arena.size + ·) := by
      simp only [List.mem_map, not_exists, not_and]
      omega
    rw [getElem?_redirect_of_not_mem absent]
    simp [place, Array.getElem?_append_left before]
  · obtain ⟨state, rfl⟩ := Nat.exists_eq_add_of_le after
    have injective : Function.Injective (arena.size + ·) := fun _ _ => Nat.add_left_cancel
    have count := List.count_map_of_injective accepts _ injective state
    have member : (accepts.map (arena.size + ·)).contains (arena.size + state) =
        accepts.contains state := by
      simp [List.contains_eq_mem]
    simp only [place, Array.getElem?_append_right after, Nat.add_sub_cancel_left,
      Array.getElem?_map, getElem?_redirect, Option.map_map, count, member]
    congr 1
    funext own
    simp [State.shift]

/-- What stands before other states is redirected without them. -/
private theorem redirect_append {accepts : List Nat}
    (inside : ∀ state, state ∈ accepts → state < arena.size) (target : Nat) :
    redirect accepts target (arena ++ states) = redirect accepts target arena ++ states := by
  apply Array.ext_getElem?
  intro number
  rw [getElem?_redirect, Array.getElem?_append, Array.getElem?_append, size_redirect]
  split
  · rw [getElem?_redirect]
  · next outside =>
    have absent : number ∉ accepts := fun member => outside (inside number member)
    simp [absent, List.count_eq_zero.mpr absent]

end

private theorem redirect_comm {accepts others : List Nat}
    (disjoint : ∀ state, state ∈ accepts → state ∉ others) (target next : Nat) (arena : Arena) :
    redirect accepts target (redirect others next arena) =
      redirect others next (redirect accepts target arena) := by
  apply Array.ext_getElem?
  intro state
  simp only [getElem?_redirect, Option.map_map]
  congr 1
  funext own
  by_cases member : state ∈ accepts
  · have absent := disjoint state member
    simp [absent, List.count_eq_zero.mpr absent]
  · simp [member, List.count_eq_zero.mpr member]

/-! ### Fragments after an arena -/

/-- What is built after placed states is what is built after them where they stood, placed. -/
def Movable (build : Arena → Fragment) : Prop :=
  ∀ arena states : Arena, build (place arena states) = (build states).placed arena

private theorem movable_epsilon : Movable ofEpsilon := by
  intro arena states
  simp [ofEpsilon, placed, place_push, State.shift]

private theorem movable_char (c : Char) : Movable (ofChar c) := by
  intro arena states
  simp [ofChar, placed, place_push, State.shift, Nat.add_assoc]

section

variable {first second : Arena → Fragment} (left : Movable first) (right : Movable second)

include left

private theorem Movable.star : Movable (ofStar first) := by
  intro arena states
  simp [ofStar, placed, left arena states, place_push, place_redirect, State.shift]

include right

private theorem Movable.union : Movable (ofUnion first second) := by
  intro arena states
  simp [ofUnion, placed, left arena states, right arena, place_push, State.shift]

private theorem Movable.andThen : Movable fun arena => (first arena).andThen second := by
  intro arena states
  simp [Fragment.andThen, placed, left arena states, right arena, place_redirect]

end

theorem movable_ofRegex (regex : Regex) : Movable (ofRegex regex) := by
  induction regex with
  | epsilon => exact movable_epsilon
  | char c => exact movable_char c
  | concat l r leftIh rightIh => exact leftIh.andThen rightIh
  | union l r leftIh rightIh => exact leftIh.union rightIh
  | star x ih => exact ih.star

/-- What is built at the end of an arena is what is built alone, placed after the arena. -/
theorem ofRegex_eq_placed (regex : Regex) (arena : Arena) :
    ofRegex regex arena = (ofRegex regex #[]).placed arena := by
  have moved := movable_ofRegex regex arena #[]
  rwa [place_empty] at moved

/-- A fragment does not depend on how the states before it are redirected. -/
theorem ofRegex_redirect (regex : Regex) {arena : Arena} {accepts : List Nat}
    (inside : ∀ state, state ∈ accepts → state < arena.size) (target : Nat) :
    ofRegex regex (redirect accepts target arena) =
      { ofRegex regex arena with
        arena := redirect accepts target (ofRegex regex arena).arena } := by
  rw [ofRegex_eq_placed regex (redirect accepts target arena), ofRegex_eq_placed regex arena]
  simp only [placed, place, size_redirect, redirect_append _ _ inside]

/-! ### Association -/

/-- Concatenated fragments can be linked in any order. -/
theorem ofRegex_assoc (first second third : Regex) :
    ofRegex (.concat (.concat first second) third) =
      ofRegex (.concat first (.concat second third)) := by
  funext arena
  have left := block_ofRegex first arena
  have right := block_ofRegex second (ofRegex first arena).arena
  have inside : ∀ state, state ∈ (ofRegex first arena).accepts →
      state < (ofRegex second (ofRegex first arena).arena).arena.size :=
    left.accepts_lt right.size_le
  have disjoint : ∀ state, state ∈ (ofRegex second (ofRegex first arena).arena).accepts →
      state ∉ (ofRegex first arena).accepts := by
    intro state inSecond inFirst
    exact left.disjoint right state inFirst inSecond
  simp only [ofRegex, andThen, ofRegex_redirect third inside, redirect_comm disjoint]

/-- Expressions that differ only in association have the same fragments. -/
theorem ofRegex_congr {first second : Regex} (same : first.Reassociates second) :
    ofRegex first = ofRegex second := by
  induction same with
  | refl => rfl
  | symm _ ih => exact ih.symm
  | trans _ _ before after => exact before.trans after
  | assoc first second third => exact ofRegex_assoc first second third
  | concat _ _ before after => funext arena; simp only [ofRegex, before, after]
  | union _ _ before after => funext arena; simp only [ofRegex, before, after]
  | star _ inside => funext arena; simp only [ofRegex, inside]

/-! ### Isolation -/

/-- A fragment stands by itself at the end of an arena: it is the one that is built alone, and it
    neither changes what stands before it nor leads there. -/
structure Isolated (arena : Arena) (alone fragment : Fragment) : Prop where
  /-- The states of the arena are as they were, and after them come those of the fragment alone with
      all numbers moved up. -/
  arena_eq : fragment.arena = arena ++ alone.arena.map (State.shift arena.size)
  start_eq : fragment.start = arena.size + alone.start
  accepts_eq : fragment.accepts = alone.accepts.map (arena.size + ·)
  start_mem : arena.size ≤ fragment.start ∧ fragment.start < fragment.arena.size
  /-- No step leads from the new states to others. -/
  keeps : fragment.nfa.Keeps arena.size fragment.arena.size
  accepts_nodup : fragment.accepts.Nodup
  /-- The states that are listed are the new ones that accept, so what is redirected later is there
      and is not of the arena. -/
  mem_accepts_iff : ∀ state, state ∈ fragment.accepts ↔
    arena.size ≤ state ∧ state < fragment.arena.size ∧ fragment.nfa.accepting state = true

/-- Every expression is built in isolation, whatever states the arena holds. -/
theorem isolated_build (regex : Regex) (arena : Arena) :
    Isolated arena (build regex #[]) (build regex arena) := by
  have block := block_ofRegex regex arena
  have placed := ofRegex_eq_placed regex arena
  rw [build_eq_ofRegex, build_eq_ofRegex]
  constructor
  case arena_eq => exact congrArg Fragment.arena placed
  case start_eq => exact congrArg Fragment.start placed
  case accepts_eq => exact congrArg Fragment.accepts placed
  case start_mem => exact block.start_mem
  case keeps => exact ⟨block.part.keeps.move, block.part.keeps.edge⟩
  case accepts_nodup => exact nodup_accepts regex arena
  case mem_accepts_iff => exact fun state => block.part.mem_accepts_iff

-- The state before accepts and its steps lead to no states, but nothing of that is touched.
example : build (.star (.char 'a')) #[⟨true, some ('b', 7), [9]⟩] =
    ⟨#[⟨true, some ('b', 7), [9]⟩, ⟨false, none, [3]⟩, ⟨false, some ('a', 1), []⟩,
      ⟨true, none, [2]⟩], 3, [3]⟩ := by decide

end Fragment

end CommonWord.Nfa
