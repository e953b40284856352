import CommonWord.Proofs.Runs
import Mathlib.Computability.Language

/-!
The words on the paths between states, and what they become when states get new empty moves.

A block of states that no step leaves has the same words wherever it stands. Moves that are added
from several states to one target add the paths that go to the target any number of times.
-/

namespace CommonWord.Nfa

open scoped Computability

variable {nfa other : Nfa}

/-- The words on the paths from a state to any of several others. -/
def words (nfa : Nfa) (source : Nat) (targets : List Nat) : Language Char :=
  {word | ∃ target, target ∈ targets ∧ nfa.Path source word target}

theorem mem_words_iff {source : Nat} {targets : List Nat} {word : List Char} :
    word ∈ nfa.words source targets ↔ ∃ target, target ∈ targets ∧ nfa.Path source word target :=
  Iff.rfl

private theorem path_iff {source target : Nat} {word : List Char} :
    nfa.Path source word target ↔
      (word = [] ∧ source = target) ∨
      (∃ middle, middle ∈ nfa.moves source ∧ nfa.Path middle word target) ∨
      (∃ c middle rest, nfa.edge? source = some (c, middle) ∧ word = c :: rest ∧
        nfa.Path middle rest target) := by
  constructor
  · intro path
    cases path with
    | stay => exact .inl ⟨rfl, rfl⟩
    | move step rest => exact .inr (.inl ⟨_, step, rest⟩)
    | edge step rest => exact .inr (.inr ⟨_, _, _, step, rfl, rest⟩)
  · rintro (⟨rfl, rfl⟩ | ⟨middle, step, rest⟩ | ⟨c, middle, rest, step, rfl, after⟩)
    · exact .stay source
    · exact .move step rest
    · exact .edge step after

theorem mem_words_step_iff {source : Nat} {targets : List Nat} {word : List Char} :
    word ∈ nfa.words source targets ↔
      (word = [] ∧ source ∈ targets) ∨
      (∃ middle, middle ∈ nfa.moves source ∧ word ∈ nfa.words middle targets) ∨
      (∃ c middle rest, nfa.edge? source = some (c, middle) ∧ word = c :: rest ∧
        rest ∈ nfa.words middle targets) := by
  simp only [mem_words_iff]
  constructor
  · rintro ⟨target, member, path⟩
    rcases path_iff.mp path with ⟨empty, rfl⟩ | ⟨middle, step, rest⟩ |
      ⟨c, middle, rest, step, spelled, after⟩
    · exact .inl ⟨empty, member⟩
    · exact .inr (.inl ⟨middle, step, target, member, rest⟩)
    · exact .inr (.inr ⟨c, middle, rest, step, spelled, target, member, after⟩)
  · rintro (⟨rfl, member⟩ | ⟨middle, step, target, member, path⟩ |
      ⟨c, middle, rest, step, rfl, target, member, path⟩)
    · exact ⟨source, member, .stay source⟩
    · exact ⟨target, member, .move step path⟩
    · exact ⟨target, member, .edge step path⟩

theorem words_append (source : Nat) (left right : List Nat) :
    nfa.words source (left ++ right) = nfa.words source left + nfa.words source right := by
  ext word
  simp only [Language.mem_add, mem_words_iff, List.mem_append, or_and_right, exists_or]

/-! ### Blocks -/

/-- No step leaves the states from one number up to another. -/
structure Keeps (nfa : Nfa) (low high : Nat) : Prop where
  move : ∀ source, low ≤ source → source < high → ∀ target, target ∈ nfa.moves source →
    low ≤ target ∧ target < high
  edge : ∀ source, low ≤ source → source < high → ∀ c target,
    nfa.edge? source = some (c, target) → low ≤ target ∧ target < high

/-- Two automata have the same states from one number up to another. -/
def Alike (nfa other : Nfa) (low high : Nat) : Prop :=
  ∀ state, low ≤ state → state < high → nfa.states[state]? = other.states[state]?

theorem Alike.symm {low high : Nat} (alike : nfa.Alike other low high) :
    other.Alike nfa low high :=
  fun state above below => (alike state above below).symm

private theorem Alike.moves {low high state : Nat} (alike : nfa.Alike other low high)
    (above : low ≤ state) (below : state < high) : nfa.moves state = other.moves state := by
  rw [Nfa.moves, Nfa.moves, alike state above below]

private theorem Alike.edge? {low high state : Nat} (alike : nfa.Alike other low high)
    (above : low ≤ state) (below : state < high) : nfa.edge? state = other.edge? state := by
  rw [Nfa.edge?, Nfa.edge?, alike state above below]

theorem Alike.accepting {low high state : Nat} (alike : nfa.Alike other low high)
    (above : low ≤ state) (below : state < high) :
    nfa.accepting state = other.accepting state := by
  rw [Nfa.accepting, Nfa.accepting, alike state above below]

theorem Keeps.of_alike {low high : Nat} (keeps : nfa.Keeps low high)
    (alike : nfa.Alike other low high) : other.Keeps low high := by
  constructor
  · intro source above below target step
    exact keeps.move source above below target (alike.moves above below ▸ step)
  · intro source above below c target step
    exact keeps.edge source above below c target (alike.edge? above below ▸ step)

/-- A path that begins in a block stays in it, wherever the block stands. -/
theorem Path.of_alike {low high source target : Nat} {word : List Char}
    (path : nfa.Path source word target) (keeps : nfa.Keeps low high)
    (alike : nfa.Alike other low high) (above : low ≤ source) (below : source < high) :
    other.Path source word target ∧ low ≤ target ∧ target < high := by
  induction path with
  | stay state => exact ⟨.stay state, above, below⟩
  | move step _ ih =>
    obtain ⟨low, high⟩ := keeps.move _ above below _ step
    obtain ⟨path, inside⟩ := ih low high
    exact ⟨.move (alike.moves above below ▸ step) path, inside⟩
  | edge step _ ih =>
    obtain ⟨low, high⟩ := keeps.edge _ above below _ _ step
    obtain ⟨path, inside⟩ := ih low high
    exact ⟨.edge (alike.edge? above below ▸ step) path, inside⟩

theorem words_of_alike {low high source : Nat} {targets : List Nat} (keeps : nfa.Keeps low high)
    (alike : nfa.Alike other low high) (above : low ≤ source) (below : source < high) :
    other.words source targets = nfa.words source targets := by
  ext word
  constructor
  · rintro ⟨target, member, path⟩
    exact ⟨target, member, (path.of_alike (keeps.of_alike alike) alike.symm above below).1⟩
  · rintro ⟨target, member, path⟩
    exact ⟨target, member, (path.of_alike keeps alike above below).1⟩

theorem words_eq_zero {low high source : Nat} {targets : List Nat} (keeps : nfa.Keeps low high)
    (above : low ≤ source) (below : source < high)
    (outside : ∀ target, target ∈ targets → target < low ∨ high ≤ target) :
    nfa.words source targets = 0 := by
  ext word
  refine iff_of_false ?_ (Language.notMem_zero word)
  rintro ⟨target, member, path⟩
  obtain ⟨_, low, high⟩ := path.of_alike keeps (fun _ _ _ => rfl) above below
  have := outside target member
  omega

/-! ### Added moves -/

/-- One automaton has the steps of another, and a move to the target out of each of some states. -/
structure Redirects (nfa other : Nfa) (sources : List Nat) (target : Nat) : Prop where
  moves : ∀ state next, next ∈ other.moves state ↔
    next ∈ nfa.moves state ∨ state ∈ sources ∧ next = target
  edges : ∀ state, other.edge? state = nfa.edge? state

variable {sources : List Nat} {target : Nat}

theorem Redirects.path (redirects : nfa.Redirects other sources target)
    {first last : Nat} {word : List Char} (path : nfa.Path first word last) :
    other.Path first word last := by
  induction path with
  | stay state => exact .stay state
  | move step _ ih => exact .move ((redirects.moves _ _).mpr (.inl step)) ih
  | edge step _ ih => exact .edge ((redirects.edges _).trans step) ih

private theorem Redirects.path_to_target (redirects : nfa.Redirects other sources target)
    {first : Nat} {word : List Char} (member : word ∈ nfa.words first sources) :
    other.Path first word target := by
  obtain ⟨source, known, path⟩ := member
  have step : target ∈ other.moves source := (redirects.moves _ _).mpr (.inr ⟨known, rfl⟩)
  simpa using (redirects.path path).append (.move step (.stay target))

/-- Any number of rounds from the target to one of the sources leads back to the target. -/
private theorem Redirects.path_rounds (redirects : nfa.Redirects other sources target)
    {word : List Char} (rounds : word ∈ (nfa.words target sources)∗) :
    other.Path target word target := by
  obtain ⟨parts, rfl, good⟩ := Language.mem_kstar.mp rounds
  clear rounds
  induction parts with
  | nil => exact .stay target
  | cons part parts ih =>
    have later := ih fun part member => good part (.tail _ member)
    exact (redirects.path_to_target (good part (.head _))).append later

private theorem mem_words_cons {source middle : Nat} {targets : List Nat} {c : Char}
    {word : List Char} (step : nfa.edge? source = some (c, middle))
    (member : word ∈ nfa.words middle targets) : c :: word ∈ nfa.words source targets := by
  obtain ⟨last, known, path⟩ := member
  exact ⟨last, known, .edge step path⟩

private theorem mem_words_move {source middle : Nat} {targets : List Nat} {word : List Char}
    (step : middle ∈ nfa.moves source) (member : word ∈ nfa.words middle targets) :
    word ∈ nfa.words source targets := by
  obtain ⟨last, known, path⟩ := member
  exact ⟨last, known, .move step path⟩

/-- A path over added moves is one without them, or it goes to one of the sources, makes any number
    of rounds from the target and goes on from there. -/
private theorem Redirects.mem_of_path (redirects : nfa.Redirects other sources target)
    {first last : Nat} {word : List Char} (path : other.Path first word last) :
    word ∈ nfa.words first [last] + nfa.words first sources *
      ((nfa.words target sources)∗ * nfa.words target [last]) := by
  induction path with
  | stay state => exact .inl ⟨state, .head _, .stay state⟩
  | @move first middle last word step _ ih =>
    rcases (redirects.moves _ _).mp step with old | ⟨known, rfl⟩
    · rcases ih with direct | ⟨before, reach, after, rest, rfl⟩
      · exact .inl (mem_words_move old direct)
      · exact .inr ⟨before, mem_words_move old reach, after, rest, rfl⟩
    · -- The path takes an added move, so what follows begins at the target.
      refine .inr ⟨[], ⟨first, known, .stay first⟩, word, ?_, rfl⟩
      rcases ih with direct | ⟨before, round, after, ⟨rounds, many, final, reached, rfl⟩, rfl⟩
      · exact ⟨[], Language.nil_mem_kstar _, word, direct, rfl⟩
      · refine ⟨before ++ rounds, ?_, final, reached, List.append_assoc ..⟩
        rw [← Language.one_add_self_mul_kstar_eq_kstar]
        exact .inr ⟨before, round, rounds, many, rfl⟩
  | edge step _ ih =>
    rw [redirects.edges] at step
    rcases ih with direct | ⟨before, reach, after, rest, rfl⟩
    · exact .inl (mem_words_cons step direct)
    · exact .inr ⟨_ :: before, mem_words_cons step reach, after, rest, rfl⟩

/-- What added moves do to the words between states. -/
theorem Redirects.words_eq (redirects : nfa.Redirects other sources target) (first : Nat)
    (targets : List Nat) :
    other.words first targets = nfa.words first targets + nfa.words first sources *
      ((nfa.words target sources)∗ * nfa.words target targets) := by
  ext word
  constructor
  · rintro ⟨last, member, path⟩
    rcases redirects.mem_of_path path with ⟨final, same, direct⟩ | ⟨before, reach, after, onward, rfl⟩
    · obtain rfl := List.mem_singleton.mp same
      exact .inl ⟨final, member, direct⟩
    · obtain ⟨rounds, many, rest, ⟨final, same, direct⟩, rfl⟩ := onward
      obtain rfl := List.mem_singleton.mp same
      exact .inr ⟨before, reach, _, ⟨rounds, many, rest, ⟨final, member, direct⟩, rfl⟩, rfl⟩
  · rintro (⟨last, member, path⟩ |
      ⟨before, reach, _, ⟨rounds, many, rest, ⟨last, member, path⟩, rfl⟩, rfl⟩)
    · exact ⟨last, member, redirects.path path⟩
    · exact ⟨last, member, (redirects.path_to_target reach).append
        ((redirects.path_rounds many).append (redirects.path path))⟩

end CommonWord.Nfa
