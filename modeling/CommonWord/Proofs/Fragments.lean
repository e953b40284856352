import CommonWord.Nfa.Thompson
import CommonWord.Proofs.Words
import CommonWord.Regex.Language

/-!
Thompson's construction gives an automaton for the language of the expression.

Every fragment is a block at the end of the arena: what stood in the arena before stays as it was,
and no step leads out of the block. So the words of a fragment stay the same while other fragments
are built after it, up to the moves that redirecting its accepting states adds.
-/

namespace CommonWord.Nfa

open scoped Computability

/-! ### Arenas -/

@[simp] theorem Fragment.size_redirect (accepts : List Nat) (target : Nat) (arena : Arena) :
    (redirect accepts target arena).size = arena.size := by
  induction accepts generalizing arena with
  | nil => rfl
  | cons state rest ih =>
    exact (ih _).trans (Array.size_modify ..)

theorem Fragment.getElem?_redirect (accepts : List Nat) (target : Nat) (arena : Arena)
    (state : Nat) :
    (redirect accepts target arena)[state]? = arena[state]?.map fun s =>
      { s with
        accepting := s.accepting && !accepts.contains state
        moves := s.moves ++ List.replicate (accepts.count state) target } := by
  induction accepts generalizing arena with
  | nil => simp [redirect]
  | cons first rest ih =>
    refine (ih _).trans ?_
    rw [Array.getElem?_modify]
    by_cases same : first = state
    · subst same
      simp [List.replicate_succ, Function.comp_def]
    · simp [same, Ne.symm same]

/-- Redirecting leaves the states alone that are not listed. -/
theorem Fragment.getElem?_redirect_of_not_mem {accepts : List Nat} {state : Nat}
    (absent : state ∉ accepts) (target : Nat) (arena : Arena) :
    (redirect accepts target arena)[state]? = arena[state]? := by
  rw [getElem?_redirect]
  simp [absent, List.count_eq_zero.mpr absent]

theorem alike_push (arena : Arena) (new : State) (low first second : Nat) :
    Alike ⟨arena, first⟩ ⟨arena.push new, second⟩ low arena.size := by
  intro state _ below
  change arena[state]? = (arena.push new)[state]?
  rw [Array.getElem?_push_lt below, Array.getElem?_eq_getElem below]

section
variable (arena : Arena) (new : State) (start : Nat)

@[simp] theorem moves_push : moves ⟨arena.push new, start⟩ arena.size = new.moves := by
  simp [moves]

@[simp] theorem edge?_push : edge? ⟨arena.push new, start⟩ arena.size = new.edge := by
  simp [edge?]

@[simp] private theorem accepting_push :
    accepting ⟨arena.push new, start⟩ arena.size = new.accepting := by
  simp [accepting]

end

private theorem alike_redirect {accepts : List Nat} {arena : Arena}
    (low high target first second : Nat)
    (outside : ∀ state, state ∈ accepts → state < low ∨ high ≤ state) :
    Alike ⟨arena, first⟩ ⟨Fragment.redirect accepts target arena, second⟩ low high := by
  intro state above below
  have absent : state ∉ accepts := fun member => by
    have := outside state member
    omega
  exact (Fragment.getElem?_redirect_of_not_mem absent target arena).symm

theorem redirects_redirect {accepts : List Nat} {arena : Arena}
    (inside : ∀ state, state ∈ accepts → state < arena.size) (target first second : Nat) :
    Redirects ⟨arena, first⟩ ⟨Fragment.redirect accepts target arena, second⟩ accepts target := by
  constructor
  · intro state next
    simp only [moves, Fragment.getElem?_redirect]
    cases found : arena[state]? with
    | none =>
      have absent : state ∉ accepts := fun member => by
        have := Array.getElem?_eq_none_iff.mp found
        have := inside state member
        omega
      simp [absent]
    | some s => simp [List.mem_replicate, List.count_eq_zero]
  · intro state
    simp only [edge?, Fragment.getElem?_redirect]
    cases arena[state]? <;> rfl

private theorem accepting_redirect (accepts : List Nat) (target : Nat) (arena : Arena)
    (start state : Nat) :
    accepting ⟨Fragment.redirect accepts target arena, start⟩ state =
      (accepting ⟨arena, start⟩ state && !accepts.contains state) := by
  simp only [accepting, Fragment.getElem?_redirect]
  cases arena[state]? <;> simp

/-! ### Parts of an automaton -/

/-- No step leaves the states from one number up to another, and these of them accept. -/
structure Part (nfa : Nfa) (low high : Nat) (accepts : List Nat) : Prop where
  keeps : nfa.Keeps low high
  accepts_mem : ∀ state, state ∈ accepts → low ≤ state ∧ state < high
  accepting_iff : ∀ state, low ≤ state → state < high →
    (nfa.accepting state = true ↔ state ∈ accepts)

theorem Part.mem_accepts_iff {nfa : Nfa} {low high : Nat} {accepts : List Nat}
    (part : nfa.Part low high accepts) {state : Nat} :
    state ∈ accepts ↔ low ≤ state ∧ state < high ∧ nfa.accepting state = true := by
  constructor
  · intro member
    obtain ⟨above, below⟩ := part.accepts_mem state member
    exact ⟨above, below, (part.accepting_iff state above below).mpr member⟩
  · rintro ⟨above, below, accepting⟩
    exact (part.accepting_iff state above below).mp accepting

theorem Part.accepting {nfa : Nfa} {low high : Nat} {accepts : List Nat}
    (part : nfa.Part low high accepts) {state : Nat} (member : state ∈ accepts) :
    nfa.accepting state = true :=
  (part.mem_accepts_iff.mp member).2.2

theorem Part.not_mem {nfa : Nfa} {low high : Nat} {accepts : List Nat}
    (part : nfa.Part low high accepts) {state : Nat} (outside : state < low ∨ high ≤ state) :
    state ∉ accepts := by
  intro member
  have := part.accepts_mem state member
  omega

private theorem Part.none (nfa : Nfa) (low : Nat) : nfa.Part low low [] :=
  ⟨⟨fun _ above below => absurd above (by omega), fun _ above below => absurd above (by omega)⟩,
    by simp, fun _ above below => absurd above (by omega)⟩

theorem Part.of_alike {nfa other : Nfa} {low high : Nat} {accepts : List Nat}
    (part : nfa.Part low high accepts) (alike : nfa.Alike other low high) :
    other.Part low high accepts := by
  refine ⟨part.keeps.of_alike alike, part.accepts_mem, fun state above below => ?_⟩
  rw [← alike.accepting above below]
  exact part.accepting_iff state above below

private theorem Part.append {nfa : Nfa} {low middle high : Nat} {left right : List Nat}
    (first : nfa.Part low middle left) (second : nfa.Part middle high right)
    (ordered : low ≤ middle ∧ middle ≤ high) : nfa.Part low high (left ++ right) := by
  obtain ⟨before, after⟩ := ordered
  refine ⟨⟨?_, ?_⟩, ?_, ?_⟩
  · intro source above below target step
    by_cases inFirst : source < middle
    · have := first.keeps.move source above inFirst target step
      omega
    · have := second.keeps.move source (by omega) below target step
      omega
  · intro source above below c target step
    by_cases inFirst : source < middle
    · have := first.keeps.edge source above inFirst c target step
      omega
    · have := second.keeps.edge source (by omega) below c target step
      omega
  · intro state member
    rcases List.mem_append.mp member with inLeft | inRight
    · have := first.accepts_mem state inLeft
      omega
    · have := second.accepts_mem state inRight
      omega
  · intro state above below
    rw [List.mem_append]
    by_cases inFirst : state < middle
    · have absent : state ∉ right := second.not_mem (.inl inFirst)
      simpa [absent] using first.accepting_iff state above inFirst
    · have absent : state ∉ left := first.not_mem (.inr (Nat.le_of_not_lt inFirst))
      simpa [absent] using second.accepting_iff state (by omega) below

/-- A new state belongs to the part before it when its steps lead there. -/
private theorem Part.push {arena : Arena} {low : Nat} {accepts : List Nat}
    (part : Part ⟨arena, 0⟩ low arena.size accepts) (new : State) (after : low ≤ arena.size)
    (moves : ∀ target, target ∈ new.moves → low ≤ target ∧ target ≤ arena.size)
    (edge : ∀ c target, new.edge = some (c, target) → low ≤ target ∧ target ≤ arena.size) :
    Part ⟨arena.push new, 0⟩ low (arena.push new).size
      (accepts ++ if new.accepting then [arena.size] else []) := by
  have old := part.of_alike (alike_push arena new low 0 0)
  rw [Array.size_push]
  refine ⟨⟨?_, ?_⟩, ?_, ?_⟩
  · intro source above below target step
    rcases Nat.lt_succ_iff_lt_or_eq.mp below with inside | rfl
    · have := old.keeps.move source above inside target step
      omega
    · have := moves target (by simpa using step)
      omega
  · intro source above below c target step
    rcases Nat.lt_succ_iff_lt_or_eq.mp below with inside | rfl
    · have := old.keeps.edge source above inside c target step
      omega
    · have := edge c target (by simpa using step)
      omega
  · intro state member
    rcases List.mem_append.mp member with known | own
    · have := old.accepts_mem state known
      omega
    · obtain rfl : state = arena.size := by
        split at own
        · exact List.mem_singleton.mp own
        · contradiction
      omega
  · intro state above below
    rw [List.mem_append]
    rcases Nat.lt_succ_iff_lt_or_eq.mp below with inside | rfl
    · have other : state ≠ arena.size := by omega
      rw [old.accepting_iff state above inside]
      split <;> simp [other]
    · have absent : arena.size ∉ accepts := old.not_mem (.inr (Nat.le_refl _))
      cases accepts? : new.accepting <;> simp [absent, accepts?]

/-- Acceptance goes from the redirected states to those that also accept. -/
private theorem Part.redirect {arena : Arena} {low high target : Nat} {left right : List Nat}
    (part : Part ⟨arena, 0⟩ low high (left ++ right)) (within : high ≤ arena.size)
    (disjoint : ∀ state, state ∈ left → state ∉ right) (inside : low ≤ target ∧ target < high) :
    Part ⟨Fragment.redirect left target arena, 0⟩ low high right := by
  have states : ∀ state, state ∈ left → state < arena.size := by
    intro state member
    have := part.accepts_mem state (List.mem_append_left _ member)
    omega
  have redirects := redirects_redirect states target 0 0
  refine ⟨⟨?_, ?_⟩, ?_, ?_⟩
  · intro source above below next step
    rcases (redirects.moves source next).mp step with old | ⟨-, rfl⟩
    · exact part.keeps.move source above below next old
    · exact inside
  · intro source above below c next step
    exact part.keeps.edge source above below c next ((redirects.edges source).symm.trans step)
  · intro state member
    exact part.accepts_mem state (List.mem_append_right _ member)
  · intro state above below
    have old := part.accepting_iff state above below
    rw [List.mem_append] at old
    rw [accepting_redirect, Bool.and_eq_true, old]
    by_cases inLeft : state ∈ left
    · simp [inLeft, disjoint state inLeft]
    · simp [inLeft]

namespace Fragment

/-! ### Blocks -/

/-- An arena is another one with the automaton of a language after it. -/
structure Block (before after : Arena) (start : Nat) (accepts : List Nat)
    (language : Language Char) : Prop where
  frame : Alike ⟨before, 0⟩ ⟨after, 0⟩ 0 before.size
  start_mem : before.size ≤ start ∧ start < after.size
  part : Part ⟨after, 0⟩ before.size after.size accepts
  words_eq : words ⟨after, 0⟩ start accepts = language

section

variable {before middle after : Arena} {start next : Nat} {accepts others : List Nat}
  {first second : Language Char}

/-- The words of a block are the same wherever it stands. -/
theorem Block.words_of_alike {nfa : Nfa} (block : Block before after start accepts first)
    (alike : Alike ⟨after, 0⟩ nfa before.size after.size) : nfa.words start accepts = first := by
  obtain ⟨low, high⟩ := block.start_mem
  rw [Nfa.words_of_alike block.part.keeps alike low high, block.words_eq]

private theorem Block.words_outside {nfa : Nfa} {targets : List Nat}
    (block : Block before after start accepts first)
    (alike : Alike ⟨after, 0⟩ nfa before.size after.size)
    (outside : ∀ target, target ∈ targets → target < before.size ∨ after.size ≤ target) :
    nfa.words start targets = 0 := by
  obtain ⟨low, high⟩ := block.start_mem
  exact words_eq_zero (block.part.keeps.of_alike alike) low high outside

theorem Block.size_le (block : Block before after start accepts first) :
    before.size ≤ after.size := by
  obtain ⟨low, high⟩ := block.start_mem
  omega

theorem Block.accepts_lt (block : Block before after start accepts first) {bound : Nat}
    (below : after.size ≤ bound) : ∀ state, state ∈ accepts → state < bound :=
  fun state member => Nat.lt_of_lt_of_le (block.part.accepts_mem state member).2 below

/-- What is before a block stays as it is when the accepting states of the block are redirected. -/
private theorem Block.frame_redirect (block : Block before after start accepts first) (target : Nat)
    (arena : Arena) : Alike ⟨arena, 0⟩ ⟨redirect accepts target arena, 0⟩ 0 before.size := by
  refine alike_redirect 0 before.size target 0 0 fun state member => .inr ?_
  exact (block.part.accepts_mem state member).1

theorem block_epsilon (arena : Arena) :
    Block arena (arena.push ⟨true, none, []⟩) arena.size [arena.size] 1 := by
  refine ⟨alike_push _ _ _ _ _, ⟨Nat.le_refl _, by simp⟩, ?_, ?_⟩
  · exact (Part.none _ _).push ⟨true, none, []⟩ (Nat.le_refl _) (by simp) (by simp)
  · ext word
    rw [mem_words_step_iff]
    simp [Language.mem_one]

private theorem Block.letter (block : Block before after start accepts first) (c : Char) :
    Block before (after.push ⟨false, some (c, start), []⟩) after.size accepts
      ({[c]} * first) := by
  obtain ⟨low, high⟩ := block.start_mem
  have older := alike_push after ⟨false, some (c, start), []⟩
  refine ⟨?_, ⟨by omega, by simp⟩, ?_, ?_⟩
  · intro state above below
    exact (block.frame state above below).trans (older 0 0 0 state above (by omega))
  · simpa using block.part.push ⟨false, some (c, start), []⟩ (by omega) (by simp) (by simp; omega)
  · have absent : after.size ∉ accepts := block.part.not_mem (.inr (Nat.le_refl _))
    have old := block.words_of_alike (older before.size 0 0)
    ext word
    rw [mem_words_step_iff]
    simp only [absent, edge?_push, moves_push, and_false, false_or, List.not_mem_nil,
      false_and, exists_const, Option.some.injEq, Prod.mk.injEq]
    constructor
    · rintro ⟨_, _, rest, ⟨rfl, rfl⟩, rfl, member⟩
      exact ⟨[c], rfl, rest, old ▸ member, rfl⟩
    · rintro ⟨_, rfl, rest, member, rfl⟩
      exact ⟨c, start, rest, ⟨rfl, rfl⟩, rfl, old ▸ member⟩

private theorem block_char (c : Char) (arena : Arena) :
    Block arena ((arena.push ⟨true, none, []⟩).push ⟨false, some (c, arena.size), []⟩)
      (arena.size + 1) [arena.size] {[c]} := by
  simpa using (block_epsilon arena).letter c

variable (left : Block before middle start accepts first)
  (right : Block middle after next others second)

include left right

private theorem Block.ordered : before.size ≤ middle.size ∧ middle.size ≤ after.size := by
  have := left.start_mem
  have := right.start_mem
  omega

omit left in
theorem Block.left_alike (low : Nat) : Alike ⟨middle, 0⟩ ⟨after, 0⟩ low middle.size :=
  fun state _ below => right.frame state (Nat.zero_le _) below

/-- The states of one fragment and of the next one after it. -/
theorem Block.both : Part ⟨after, 0⟩ before.size after.size (accepts ++ others) :=
  (left.part.of_alike (right.left_alike before.size)).append right.part (left.ordered right)

/-- Two blocks have no accepting states in common. -/
theorem Block.disjoint : ∀ state, state ∈ accepts → state ∉ others := by
  intro state inLeft
  have below := (left.part.accepts_mem state inLeft).2
  exact right.part.not_mem (.inl below)

private theorem Block.union :
    Block before (after.push ⟨false, none, [start, next]⟩) after.size (accepts ++ others)
      (first + second) := by
  have older := alike_push after ⟨false, none, [start, next]⟩
  obtain ⟨before_le, middle_le⟩ := left.ordered right
  obtain ⟨leftLow, leftHigh⟩ := left.start_mem
  obtain ⟨rightLow, rightHigh⟩ := right.start_mem
  have leftAlike := right.left_alike before.size
  have both := left.both right
  refine ⟨?_, ⟨by omega, by simp⟩, ?_, ?_⟩
  · intro state above below
    exact ((left.frame state above below).trans (right.frame state above (by omega))).trans
      (older 0 0 0 state above (by omega))
  · simpa using both.push ⟨false, none, [start, next]⟩ (by omega) (by simp; omega) (by simp)
  · have absent : after.size ∉ accepts ++ others := both.not_mem (.inr (Nat.le_refl _))
    have leftNow : Alike ⟨middle, 0⟩ ⟨after.push ⟨false, none, [start, next]⟩, 0⟩
        before.size middle.size := fun state above below =>
      (leftAlike state above below).trans (older 0 0 0 state (Nat.zero_le _) (by omega))
    have fromLeft : words ⟨after.push ⟨false, none, [start, next]⟩, 0⟩ start
        (accepts ++ others) = first := by
      rw [words_append, left.words_of_alike leftNow, left.words_outside leftNow, add_zero]
      intro target member
      have := right.part.accepts_mem target member
      omega
    have fromRight : words ⟨after.push ⟨false, none, [start, next]⟩, 0⟩ next
        (accepts ++ others) = second := by
      rw [words_append, right.words_of_alike (older _ 0 0), right.words_outside (older _ 0 0),
        zero_add]
      intro target member
      have := left.part.accepts_mem target member
      omega
    ext word
    rw [mem_words_step_iff, Language.mem_add]
    simp [absent, fromLeft, fromRight]

private theorem Block.andThen :
    Block before (redirect accepts next after) start others (first * second) := by
  obtain ⟨before_le, middle_le⟩ := left.ordered right
  obtain ⟨leftLow, leftHigh⟩ := left.start_mem
  obtain ⟨rightLow, rightHigh⟩ := right.start_mem
  have leftAlike := right.left_alike before.size
  have both := left.both right
  have inside := left.accepts_lt middle_le
  refine ⟨?_, ⟨leftLow, by simp; omega⟩, ?_, ?_⟩
  · intro state above below
    refine ((left.frame state above below).trans (right.frame state above (by omega))).trans ?_
    exact left.frame_redirect next after state above below
  · rw [size_redirect]
    exact both.redirect (Nat.le_refl _) (left.disjoint right) (by omega)
  · have same : Alike ⟨after, 0⟩ ⟨after, 0⟩ middle.size after.size := fun _ _ _ => rfl
    have reach : words ⟨after, 0⟩ start others = 0 := by
      refine left.words_outside leftAlike fun target member => ?_
      have := right.part.accepts_mem target member
      omega
    have back : words ⟨after, 0⟩ next accepts = 0 := by
      refine right.words_outside same fun target member => ?_
      have := left.part.accepts_mem target member
      omega
    rw [(redirects_redirect inside next 0 0).words_eq, reach, back,
      left.words_of_alike leftAlike, right.words_eq, kstar_zero, one_mul, zero_add]

omit right in
private theorem Block.star :
    Block before (redirect accepts middle.size (middle.push ⟨true, none, [start]⟩)) middle.size
      [middle.size] first∗ := by
  obtain ⟨low, high⟩ := left.start_mem
  have older := alike_push middle ⟨true, none, [start]⟩
  have pushed : Part ⟨middle.push ⟨true, none, [start]⟩, 0⟩ before.size (middle.size + 1)
      (accepts ++ [middle.size]) := by
    simpa using left.part.push ⟨true, none, [start]⟩ (by omega) (by simp; omega) (by simp)
  have absent : middle.size ∉ accepts := left.part.not_mem (.inr (Nat.le_refl _))
  refine ⟨?_, ⟨by omega, by simp⟩, ?_, ?_⟩
  · intro state above below
    refine ((left.frame state above below).trans
      (older 0 0 0 state above (by omega))).trans ?_
    exact left.frame_redirect middle.size _ state above below
  · rw [size_redirect, Array.size_push]
    refine pushed.redirect (by simp) ?_ (by omega)
    intro state known own
    exact absent (List.mem_singleton.mp own ▸ known)
  · have fromStart : words ⟨middle.push ⟨true, none, [start]⟩, 0⟩ start accepts = first :=
      left.words_of_alike (older _ 0 0)
    have toOwn : words ⟨middle.push ⟨true, none, [start]⟩, 0⟩ start [middle.size] = 0 :=
      left.words_outside (older _ 0 0) (by simp)
    have once : words ⟨middle.push ⟨true, none, [start]⟩, 0⟩ middle.size accepts = first := by
      ext word
      rw [mem_words_step_iff]
      simp [absent, fromStart]
    have stay : words ⟨middle.push ⟨true, none, [start]⟩, 0⟩ middle.size [middle.size] = 1 := by
      ext word
      rw [mem_words_step_iff]
      simp [toOwn, Language.mem_one, Language.notMem_zero]
    have within : ∀ state, state ∈ accepts →
        state < (middle.push (⟨true, none, [start]⟩ : State)).size := left.accepts_lt (by simp)
    have redirects := redirects_redirect within middle.size 0 0
    rw [redirects.words_eq, once, stay, mul_one, Language.one_add_self_mul_kstar_eq_kstar]

end

/-- The fragment of an expression is a block for its language. -/
theorem block_ofRegex (regex : Regex) (arena : Arena) :
    Block arena (ofRegex regex arena).arena (ofRegex regex arena).start
      (ofRegex regex arena).accepts regex.language := by
  induction regex generalizing arena with
  | epsilon => exact block_epsilon arena
  | char c => exact block_char c arena
  | concat l r leftIh rightIh => exact (leftIh arena).andThen (rightIh _)
  | union l r leftIh rightIh => exact (leftIh arena).union (rightIh _)
  | star x ih => exact (ih arena).star

/-- Every accepting state of a fragment is listed once. -/
theorem nodup_accepts (regex : Regex) (arena : Arena) : (ofRegex regex arena).accepts.Nodup := by
  induction regex generalizing arena with
  | epsilon => exact List.nodup_singleton _
  | char c => exact List.nodup_singleton _
  | concat l r _ rightIh => exact rightIh _
  | union l r leftIh rightIh =>
    have disjoint := (block_ofRegex l arena).disjoint (block_ofRegex r (ofRegex l arena).arena)
    refine List.nodup_append.mpr ⟨leftIh arena, rightIh _, ?_⟩
    rintro state inLeft other inRight rfl
    exact disjoint state inLeft inRight
  | star x _ => exact List.nodup_singleton _

theorem build_eq_ofRegex (regex : Regex) (arena : Arena) :
    build regex arena = ofRegex regex arena :=
  buildOnto_eq regex [] arena

end Fragment

/-! ### The automaton of an expression -/

theorem path_restart {arena : Arena} {first second source target : Nat}
    {word : List Char} (path : Path ⟨arena, first⟩ source word target) :
    Path ⟨arena, second⟩ source word target := by
  induction path with
  | stay state => exact .stay state
  | move step _ ih => exact .move step ih
  | edge step _ ih => exact .edge step ih

theorem wellFormed_ofRegex (regex : Regex) : (ofRegex regex).WellFormed := by
  have block := Fragment.block_ofRegex regex #[]
  rw [ofRegex, Fragment.build_eq_ofRegex]
  refine ⟨block.start_mem.2, ?_, ?_⟩
  · intro source target step
    by_cases inside : source < (Fragment.ofRegex regex #[]).arena.size
    · exact (block.part.keeps.move source (Nat.zero_le _) inside target step).2
    · have missing := Array.getElem?_eq_none_iff.mpr (Nat.le_of_not_lt inside)
      simp [moves, Fragment.nfa, missing] at step
  · intro source c target step
    by_cases inside : source < (Fragment.ofRegex regex #[]).arena.size
    · exact (block.part.keeps.edge source (Nat.zero_le _) inside c target step).2
    · have missing := Array.getElem?_eq_none_iff.mpr (Nat.le_of_not_lt inside)
      simp [edge?, Fragment.nfa, missing] at step

/-- The construction counts the accepting states of the automaton that it builds. -/
theorem length_accepts (regex : Regex) : (Fragment.build regex #[]).accepts.length =
    ((List.range (ofRegex regex).size).filter (ofRegex regex).accepting).length := by
  have part := (Fragment.block_ofRegex regex #[]).part
  rw [ofRegex, Fragment.build_eq_ofRegex]
  apply List.Perm.length_eq
  apply (List.perm_ext_iff_of_nodup (Fragment.nodup_accepts regex #[])
    (List.nodup_range.filter _)).mpr
  intro state
  rw [List.mem_filter, List.mem_range, part.mem_accepts_iff]
  exact and_iff_right (Nat.zero_le state)

/-- The words that reach an accepting state are those of the language. -/
theorem reaches_accepting_iff (regex : Regex) (word : List Char) :
    (∃ state, (ofRegex regex).Reaches word state ∧ (ofRegex regex).accepting state = true) ↔
      word ∈ regex.language := by
  have block := Fragment.block_ofRegex regex #[]
  have wellFormed := wellFormed_ofRegex regex
  rw [← block.words_eq]
  rw [ofRegex, Fragment.build_eq_ofRegex] at wellFormed ⊢
  constructor
  · rintro ⟨state, path, accepting⟩
    have inside := Path.target_lt wellFormed path wellFormed.start_lt
    exact ⟨state, block.part.mem_accepts_iff.mpr ⟨Nat.zero_le _, inside, accepting⟩,
      path_restart path⟩
  · rintro ⟨state, member, path⟩
    exact ⟨state, path_restart path, block.part.accepting member⟩

/-- The automaton of an expression accepts exactly the words of its language. -/
theorem accepts_ofRegex_iff (regex : Regex) (word : List Char) :
    (ofRegex regex).accepts word = true ↔ word ∈ regex.language := by
  rw [accepts_iff (wellFormed_ofRegex regex), reaches_accepting_iff]

end CommonWord.Nfa
