import CommonWord.Nfa.Path
import Mathlib.Data.List.Induction
import Mathlib.Data.List.Sort

/-!
Runs of nondeterministic automata and the paths they stand for.

The closure of a frontier holds exactly the states that empty moves reach from it, in ascending
order. So a run over a word keeps exactly the states that the word reaches.
-/

namespace CommonWord.Nfa

variable {nfa : Nfa}

/-- Whatever the automaton names is one of its states. -/
structure WellFormed (nfa : Nfa) : Prop where
  start_lt : nfa.start < nfa.size
  move_lt : ∀ source target, target ∈ nfa.moves source → target < nfa.size
  edge_lt : ∀ source c target, nfa.edge? source = some (c, target) → target < nfa.size

/-! ### Paths -/

theorem Path.append {source middle target : Nat} {left right : List Char}
    (first : nfa.Path source left middle) (second : nfa.Path middle right target) :
    nfa.Path source (left ++ right) target := by
  induction first with
  | stay => exact second
  | move step _ ih => exact .move step (ih second)
  | edge step _ ih => exact .edge step (ih second)

theorem Reaches.move {state target : Nat} {word : List Char} (reached : nfa.Reaches word state)
    (step : target ∈ nfa.moves state) : nfa.Reaches word target := by
  have path : nfa.Path nfa.start (word ++ []) target :=
    Path.append reached (.move step (.stay target))
  rwa [List.append_nil] at path

/-- A set of states that empty moves do not leave is not left by a path without a letter. -/
theorem Path.mem_of_closed {source target : Nat} {word : List Char}
    (path : nfa.Path source word target) (empty : word = []) (inside : Nat → Prop)
    (member : inside source)
    (closed : ∀ state, inside state → ∀ next, next ∈ nfa.moves state → inside next) :
    inside target := by
  induction path with
  | stay => exact member
  | move step _ ih => exact ih empty (closed _ member _ step)
  | edge => contradiction

private theorem path_cons_iff {source target : Nat} {c : Char} {word : List Char} :
    nfa.Path source (c :: word) target ↔
      ∃ middle next, nfa.Path source [] middle ∧ nfa.edge? middle = some (c, next) ∧
        nfa.Path next word target := by
  constructor
  · intro path
    generalize spelled : c :: word = text at path
    induction path with
    | stay => contradiction
    | move step _ ih =>
      obtain ⟨middle, next, before, edge, after⟩ := ih spelled
      exact ⟨middle, next, .move step before, edge, after⟩
    | @edge source next target d rest step after _ =>
      obtain ⟨rfl, rfl⟩ := List.cons.inj spelled
      exact ⟨source, next, .stay source, step, after⟩
  · rintro ⟨middle, next, before, edge, after⟩
    exact before.append (.edge edge after)

theorem Path.target_lt {source target : Nat} {word : List Char} (wellFormed : nfa.WellFormed)
    (path : nfa.Path source word target) (inside : source < nfa.size) : target < nfa.size := by
  induction path with
  | stay => exact inside
  | move step _ ih => exact ih (wellFormed.move_lt _ _ step)
  | edge step _ ih => exact ih (wellFormed.edge_lt _ _ _ step)

/-! ### Closures -/

/-- The empty moves of the states seen lead to states seen or pending. -/
def Frontier (nfa : Nfa) (seen : Std.TreeSet Nat) (pending : List Nat) : Prop :=
  ∀ state, state ∈ seen → ∀ next, next ∈ nfa.moves state → next ∈ seen ∨ next ∈ pending

theorem Frontier.skip {seen : Std.TreeSet Nat} {first : Nat} {pending : List Nat}
    (frontier : nfa.Frontier seen (first :: pending)) (old : first ∈ seen) :
    nfa.Frontier seen pending := by
  intro state member next step
  rcases frontier state member next step with known | waiting
  · exact .inl known
  · rcases List.mem_cons.mp waiting with rfl | later
    · exact .inl old
    · exact .inr later

/-- The moves of a state that is seen take its place among the pending ones, wherever they are put
    there. -/
theorem Frontier.insert {seen : Std.TreeSet Nat} {first : Nat} {pending later : List Nat}
    (frontier : nfa.Frontier seen (first :: pending))
    (places : ∀ state, state ∈ later ↔ state ∈ nfa.moves first ∨ state ∈ pending) :
    nfa.Frontier (seen.insert first) later := by
  intro state member next step
  rw [Std.TreeSet.mem_insert, Nat.compare_eq_eq] at member ⊢
  rw [places]
  rcases member with rfl | known
  · exact .inr (.inl step)
  · rcases frontier state known next step with again | waiting
    · exact .inl (.inr again)
    · rcases List.mem_cons.mp waiting with rfl | later
      · exact .inl (.inl rfl)
      · exact .inr (.inr later)

/-- A path from a state seen stays among those seen until it meets a pending one. -/
private theorem Frontier.path {seen : Std.TreeSet Nat} {pending : List Nat}
    (frontier : nfa.Frontier seen pending) {source target : Nat} (old : source ∈ seen)
    (path : nfa.Path source [] target) :
    target ∈ seen ∨ ∃ middle, middle ∈ pending ∧ nfa.Path middle [] target := by
  refine path.mem_of_closed rfl
    (fun state => state ∈ seen ∨ ∃ middle, middle ∈ pending ∧ nfa.Path middle [] state)
    (.inl old) ?_
  rintro state (known | ⟨middle, waiting, before⟩) next step
  · rcases frontier state known next step with again | waiting
    · exact .inl again
    · exact .inr ⟨next, waiting, .stay next⟩
  · exact .inr ⟨middle, waiting, before.append (.move step (.stay next))⟩

/-- The states seen are states of the automaton. -/
def Known (nfa : Nfa) (seen : Std.TreeSet Nat) : Prop := ∀ state, state ∈ seen → state < nfa.size

theorem Known.insert {seen : Std.TreeSet Nat} {first : Nat} (known : nfa.Known seen)
    (inside : first < nfa.size) : nfa.Known (seen.insert first) := by
  intro state member
  rw [Std.TreeSet.mem_insert, Nat.compare_eq_eq] at member
  rcases member with rfl | old
  · exact inside
  · exact known state old

/-- What comes of following the pending states: nothing where one of them is no state, and otherwise
    exactly the states seen and those that the pending ones lead to. -/
structure Follows (nfa : Nfa) (seen : Std.TreeSet Nat) (pending : List Nat)
    (outcome : Option (Std.TreeSet Nat)) : Prop where
  none_iff : outcome = none ↔ ∃ state, state ∈ pending ∧ nfa.size ≤ state
  mem_iff : ∀ result, outcome = some result → ∀ state,
    state ∈ result ↔ state ∈ seen ∨ ∃ source, source ∈ pending ∧ nfa.Path source [] state

section

variable {seen : Std.TreeSet Nat} {first : Nat} {pending later : List Nat}
  {outcome : Option (Std.TreeSet Nat)}

theorem follows_nil (nfa : Nfa) (seen : Std.TreeSet Nat) : nfa.Follows seen [] (some seen) := by
  refine ⟨by simp, ?_⟩
  rintro _ ⟨⟩ state
  simp

theorem follows_outside (outside : nfa.size ≤ first) :
    nfa.Follows seen (first :: pending) none :=
  ⟨iff_of_true rfl ⟨first, .head _, outside⟩, by simp⟩

theorem Follows.skip (follows : nfa.Follows seen pending outcome) (known : nfa.Known seen)
    (frontier : nfa.Frontier seen (first :: pending)) (old : first ∈ seen) :
    nfa.Follows seen (first :: pending) outcome := by
  constructor
  · rw [follows.none_iff]
    constructor
    · rintro ⟨state, member, outside⟩
      exact ⟨state, .tail _ member, outside⟩
    · rintro ⟨state, member, outside⟩
      rcases List.mem_cons.mp member with rfl | later
      · have := known state old
        omega
      · exact ⟨state, later, outside⟩
  · intro result done state
    rw [follows.mem_iff result done]
    constructor
    · rintro (known | ⟨source, member, path⟩)
      · exact .inl known
      · exact .inr ⟨source, .tail _ member, path⟩
    · rintro (known | ⟨source, member, path⟩)
      · exact .inl known
      · rcases List.mem_cons.mp member with rfl | later
        · exact (frontier.skip old).path old path
        · exact .inr ⟨source, later, path⟩

theorem Follows.insert (follows : nfa.Follows (seen.insert first) later outcome)
    (wellFormed : nfa.WellFormed) (inside : first < nfa.size)
    (places : ∀ state, state ∈ later ↔ state ∈ nfa.moves first ∨ state ∈ pending) :
    nfa.Follows seen (first :: pending) outcome := by
  constructor
  · rw [follows.none_iff]
    constructor
    · rintro ⟨state, member, outside⟩
      rcases (places state).mp member with step | waiting
      · have := wellFormed.move_lt first state step
        omega
      · exact ⟨state, .tail _ waiting, outside⟩
    · rintro ⟨state, member, outside⟩
      rcases List.mem_cons.mp member with rfl | waiting
      · omega
      · exact ⟨state, (places state).mpr (.inr waiting), outside⟩
  · intro result done state
    rw [follows.mem_iff result done, Std.TreeSet.mem_insert, Nat.compare_eq_eq]
    constructor
    · rintro ((rfl | known) | ⟨source, member, path⟩)
      · exact .inr ⟨_, .head _, .stay _⟩
      · exact .inl known
      · rcases (places source).mp member with step | waiting
        · exact .inr ⟨first, .head _, .move step path⟩
        · exact .inr ⟨source, .tail _ waiting, path⟩
    · rintro (known | ⟨source, member, path⟩)
      · exact .inl (.inr known)
      · rcases List.mem_cons.mp member with rfl | waiting
        · cases path with
          | stay => exact .inl (.inl rfl)
          | move step rest => exact .inr ⟨_, (places _).mpr (.inl step), rest⟩
        · exact .inr ⟨source, (places source).mpr (.inr waiting), path⟩

end

private theorem follows_follow (wellFormed : nfa.WellFormed) (seen : Std.TreeSet Nat)
    (pending : List Nat) (known : nfa.Known seen) (frontier : nfa.Frontier seen pending) :
    nfa.Follows seen pending (nfa.follow seen pending) := by
  fun_induction follow nfa seen pending with
  | case1 seen => exact follows_nil nfa seen
  | case2 seen first pending old ih =>
    exact (ih known (frontier.skip old)).skip known frontier old
  | case3 seen first pending new inside ih =>
    have places : ∀ state, state ∈ nfa.moves first ++ pending ↔
        state ∈ nfa.moves first ∨ state ∈ pending := fun _ => List.mem_append
    exact (ih (known.insert inside) (frontier.insert places)).insert wellFormed inside places
  | case4 seen first pending new outside => exact follows_outside (Nat.le_of_not_lt outside)

theorem known_empty (nfa : Nfa) : nfa.Known ∅ := fun _ member => absurd member (by simp)

theorem frontier_empty (nfa : Nfa) (pending : List Nat) : nfa.Frontier ∅ pending :=
  fun _ member => absurd member (by simp)

theorem follows_frontier (wellFormed : nfa.WellFormed) (frontier : List Nat) :
    nfa.Follows ∅ frontier (nfa.follow ∅ frontier) :=
  follows_follow wellFormed ∅ frontier (known_empty nfa) (frontier_empty nfa frontier)

theorem closure_spec (wellFormed : nfa.WellFormed) {frontier : List Nat}
    (inside : ∀ state, state ∈ frontier → state < nfa.size) :
    ∃ result : Std.TreeSet Nat, nfa.closure frontier = result.toList ∧
      ∀ state, state ∈ result ↔ ∃ source, source ∈ frontier ∧ nfa.Path source [] state := by
  have follows := follows_frontier wellFormed frontier
  cases followed : nfa.follow ∅ frontier with
  | none =>
    obtain ⟨state, member, outside⟩ := follows.none_iff.mp followed
    exact absurd (inside state member) (by omega)
  | some result =>
    refine ⟨result, by simp [closure, closure?, followed], fun state => ?_⟩
    simpa using follows.mem_iff result followed state

theorem mem_closure_iff (wellFormed : nfa.WellFormed) {frontier : List Nat}
    (inside : ∀ state, state ∈ frontier → state < nfa.size) (state : Nat) :
    state ∈ nfa.closure frontier ↔ ∃ source, source ∈ frontier ∧ nfa.Path source [] state := by
  obtain ⟨result, closure, member⟩ := closure_spec wellFormed inside
  rw [closure, Std.TreeSet.mem_toList, member]

theorem closure_ascending (nfa : Nfa) (frontier : List Nat) :
    (nfa.closure frontier).Pairwise (· < ·) := by
  unfold closure closure?
  cases nfa.follow ∅ frontier with
  | none => simp
  | some result =>
    simpa only [Option.map_some, Option.getD_some, Nat.compare_eq_lt] using result.ordered_toList

/-- The closure depends only on which states are in the frontier. -/
theorem closure_congr (wellFormed : nfa.WellFormed) {first second : List Nat}
    (inside : ∀ state, state ∈ first → state < nfa.size)
    (same : ∀ state, state ∈ first ↔ state ∈ second) : nfa.closure first = nfa.closure second := by
  have also : ∀ state, state ∈ second → state < nfa.size :=
    fun state member => inside state ((same state).mpr member)
  apply (closure_ascending nfa first).eq_of_mem_iff (closure_ascending nfa second)
  intro state
  simp only [mem_closure_iff wellFormed inside, mem_closure_iff wellFormed also, same]

/-! ### Runs -/

theorem mem_targets_iff (states : List Nat) (c : Char) (target : Nat) :
    target ∈ nfa.targets states c ↔
      ∃ state, state ∈ states ∧ nfa.edge? state = some (c, target) := by
  simp only [targets, List.mem_filterMap]
  constructor
  · rintro ⟨⟨label, next⟩, ⟨state, member, edge⟩, taken⟩
    split at taken
    · next same =>
      obtain rfl := Option.some.inj taken
      exact ⟨state, member, same ▸ edge⟩
    · contradiction
  · rintro ⟨state, member, edge⟩
    exact ⟨(c, target), ⟨state, member, edge⟩, if_pos rfl⟩

theorem mem_advance_iff (wellFormed : nfa.WellFormed) (states : List Nat) (c : Char)
    (target : Nat) :
    target ∈ nfa.advance states c ↔
      ∃ state next, state ∈ states ∧ nfa.edge? state = some (c, next) ∧
        nfa.Path next [] target := by
  have inside : ∀ state, state ∈ nfa.targets states c → state < nfa.size := by
    intro state member
    obtain ⟨source, _, edge⟩ := (mem_targets_iff states c state).mp member
    exact wellFormed.edge_lt source c state edge
  rw [advance, mem_closure_iff wellFormed inside]
  constructor
  · rintro ⟨next, member, path⟩
    obtain ⟨state, known, edge⟩ := (mem_targets_iff states c next).mp member
    exact ⟨state, next, known, edge, path⟩
  · rintro ⟨state, next, known, edge, path⟩
    exact ⟨next, (mem_targets_iff states c next).mpr ⟨state, known, edge⟩, path⟩

theorem mem_initial_iff (wellFormed : nfa.WellFormed) (state : Nat) :
    state ∈ nfa.initial ↔ nfa.Path nfa.start [] state := by
  rw [initial, mem_closure_iff wellFormed (by simpa using wellFormed.start_lt)]
  simp

/-- The states that a run keeps. -/
def run (nfa : Nfa) (word : List Char) : List Nat := word.foldl nfa.advance nfa.initial

theorem run_concat (nfa : Nfa) (word : List Char) (c : Char) :
    nfa.run (word ++ [c]) = nfa.advance (nfa.run word) c := by
  simp [run]

theorem run_ascending (nfa : Nfa) (word : List Char) : (nfa.run word).Pairwise (· < ·) := by
  cases word using List.reverseRecOn with
  | nil => exact closure_ascending nfa _
  | append_singleton word c =>
    rw [run_concat]
    exact closure_ascending nfa _

private theorem path_concat_iff {source target : Nat} {c : Char} {word : List Char} :
    nfa.Path source (word ++ [c]) target ↔
      ∃ middle next, nfa.Path source word middle ∧ nfa.edge? middle = some (c, next) ∧
        nfa.Path next [] target := by
  constructor
  · intro path
    induction word generalizing source with
    | nil => exact path_cons_iff.mp path
    | cons d word ih =>
      obtain ⟨middle, next, before, edge, after⟩ := path_cons_iff.mp path
      obtain ⟨last, final, front, letter, back⟩ := ih after
      exact ⟨last, final, before.append (.edge edge front), letter, back⟩
  · rintro ⟨middle, next, before, edge, after⟩
    exact before.append (.edge edge after)

/-- A run keeps exactly the states that the word reaches. -/
theorem mem_run_iff (wellFormed : nfa.WellFormed) (word : List Char) (state : Nat) :
    state ∈ nfa.run word ↔ nfa.Reaches word state := by
  induction word using List.reverseRecOn generalizing state with
  | nil => exact mem_initial_iff wellFormed state
  | append_singleton word c ih =>
    rw [run_concat, mem_advance_iff wellFormed]
    constructor
    · rintro ⟨middle, next, member, edge, path⟩
      exact path_concat_iff.mpr ⟨middle, next, (ih middle).mp member, edge, path⟩
    · intro path
      obtain ⟨middle, next, before, edge, after⟩ := path_concat_iff.mp path
      exact ⟨middle, next, (ih middle).mpr before, edge, after⟩

theorem accepts_iff (wellFormed : nfa.WellFormed) (word : List Char) :
    nfa.accepts word = true ↔ ∃ state, nfa.Reaches word state ∧ nfa.accepting state = true := by
  change (nfa.run word).any nfa.accepting = true ↔ _
  simp only [List.any_eq_true, mem_run_iff wellFormed]

end CommonWord.Nfa
