import CommonWord.Dfa.Product
import CommonWord.Proofs.Subsets
import Mathlib.Data.List.Sections

/-!
The search of the product finds the shortlex-least word that all automata accept.

A walk through the product is a walk through every automaton at once, so the words that lead to a
goal of the search are the common words. The product is finite, hence the search comes to an end.
-/

namespace CommonWord.Dfa

open Word

variable {dfas : List Dfa}

/-- A tuple holds the states at which a word ends in each of the automata. -/
def Walked (dfas : List Dfa) (word : List Char) (key : Key) : Prop :=
  List.Forall₂ (fun dfa state => dfa.walk? dfa.start word = some state) dfas key

/-- All automata accept a word. -/
def Common (dfas : List Dfa) (word : List Char) : Prop :=
  ∀ dfa, dfa ∈ dfas → dfa.accepts word = true

/-! ### Tuples side by side -/

private theorem walked_nil_iff {key : Key} : Walked dfas [] key ↔ dfas.map start = key := by
  constructor
  · intro walked
    induction walked with
    | nil => rfl
    | cons first _ ih => rw [List.map_cons, ih, Option.some.inj first]
  · rintro rfl
    apply List.forall₂_map_right_iff.mpr
    apply List.forall₂_same.mpr
    intro dfa _
    rfl

private theorem Walked.stepAll?_iff {word : List Char} {key : Key} (walked : Walked dfas word key)
    (c : Char) (next : Key) :
    stepAll? dfas key c = some next ↔ Walked dfas (word ++ [c]) next := by
  induction walked generalizing next with
  | nil =>
    show some [] = some next ↔ _
    rw [Walked, List.forall₂_nil_left_iff, Option.some_inj]
    exact eq_comm
  | @cons dfa state dfas states first rest ih =>
    have last : dfa.walk? dfa.start (word ++ [c]) = dfa.step? state c := by
      rw [walk?_concat, first]
      rfl
    rw [Walked, List.forall₂_cons_left_iff, stepAll?, last]
    cases dfa.step? state c with
    | none => simp
    | some target =>
      simp only [Option.map_eq_some_iff, Option.some_inj]
      constructor
      · rintro ⟨targets, taken, rfl⟩
        exact ⟨target, targets, rfl, (ih targets).mp taken, rfl⟩
      · rintro ⟨_, targets, rfl, walked, rfl⟩
        exact ⟨targets, (ih targets).mpr walked, rfl⟩

private theorem Walked.before {word : List Char} {c : Char} {next : Key}
    (walked : Walked dfas (word ++ [c]) next) : ∃ key, Walked dfas word key := by
  induction walked with
  | nil => exact ⟨[], .nil⟩
  | cons first rest ih =>
    obtain ⟨states, before⟩ := ih
    rw [walk?_concat] at first
    obtain ⟨state, walked, -⟩ := Option.bind_eq_some_iff.mp first
    exact ⟨state :: states, .cons walked before⟩

theorem Walked.acceptingAll_iff {word : List Char} {key : Key} (walked : Walked dfas word key) :
    acceptingAll dfas key = true ↔ Common dfas word := by
  induction walked with
  | nil => simp [acceptingAll, Common]
  | cons first rest ih =>
    rw [acceptingAll, Bool.and_eq_true, ih]
    simp [Common, accepts, first]

/-- A word leads to a tuple when it takes every automaton somewhere. -/
theorem exists_walked_iff {word : List Char} : (∃ key, Walked dfas word key) ↔
    ∀ dfa, dfa ∈ dfas → ∃ state, dfa.walk? dfa.start word = some state := by
  induction dfas with
  | nil => exact iff_of_true ⟨[], .nil⟩ (by simp)
  | cons dfa dfas ih =>
    rw [List.forall_mem_cons, ← ih]
    constructor
    · rintro ⟨_, first | ⟨first, rest⟩⟩
      exact ⟨⟨_, first⟩, _, rest⟩
    · rintro ⟨⟨state, first⟩, states, rest⟩
      exact ⟨state :: states, .cons first rest⟩

private theorem Common.walked {word : List Char} (common : Common dfas word) :
    ∃ key, Walked dfas word key := by
  refine exists_walked_iff.mpr fun dfa member => ?_
  have accepted := common dfa member
  cases walk : dfa.walk? dfa.start word with
  | none => simp [accepts, walk] at accepted
  | some state => exact ⟨state, rfl⟩

/-! ### The graph of the tuples -/

private theorem offered_ascending (wellFormed : ∀ dfa, dfa ∈ dfas → dfa.WellFormed) (key : Key) :
    (offered dfas key).Pairwise (· < ·) := by
  cases dfas with
  | nil => exact .nil
  | cons dfa dfas =>
    cases key with
    | nil => exact .nil
    | cons state states =>
      apply List.Pairwise.filter
      rw [List.pairwise_map]
      exact (wellFormed dfa (.head _)).ordered state

theorem product_ordered (wellFormed : ∀ dfa, dfa ∈ dfas → dfa.WellFormed) :
    (product dfas).Ordered := by
  intro key
  show (List.filterMap _ (offered dfas key)).Pairwise _
  apply List.pairwise_filterMap.mpr
  apply (offered_ascending wellFormed key).imp
  intro c d less first isFirst second isSecond
  obtain ⟨_, -, rfl⟩ := Option.map_eq_some_iff.mp isFirst
  obtain ⟨_, -, rfl⟩ := Option.map_eq_some_iff.mp isSecond
  exact less

private theorem mem_product_next {key next : Key} {c : Char} :
    (c, next) ∈ (product dfas).next key ↔
      c ∈ offered dfas key ∧ stepAll? dfas key c = some next := by
  show (c, next) ∈ List.filterMap _ (offered dfas key) ↔ _
  simp only [List.mem_filterMap, Option.map_eq_some_iff, Prod.mk.injEq]
  constructor
  · rintro ⟨_, member, _, taken, rfl, rfl⟩
    exact ⟨member, taken⟩
  · rintro ⟨member, taken⟩
    exact ⟨c, member, next, taken, rfl, rfl⟩

private theorem mem_labels_iff (dfa : Dfa) (state : Nat) (c : Char) :
    c ∈ (dfa.edges state).map (·.1) ↔ (dfa.step? state c).isSome = true := by
  rw [step?, List.lookup_isSome_iff, List.mem_map]
  simp only [beq_iff_eq]
  exact exists_congr fun edge => and_congr_right fun _ => eq_comm

private theorem stepsAll_iff (dfas : List Dfa) (states : Key) (c : Char) :
    ((dfas.zip states).all fun (dfa, state) => (dfa.step? state c).isSome) = true ↔
      (stepAll? dfas states c).isSome = true := by
  induction dfas generalizing states with
  | nil => simp [stepAll?]
  | cons dfa dfas ih =>
    cases states with
    | nil => simp [stepAll?]
    | cons state states =>
      simp only [List.zip_cons_cons, List.all_cons, Bool.and_eq_true, ih, stepAll?]
      cases dfa.step? state c with
      | none => simp
      | some next => simp

/-- The characters offered at a tuple are those that lead on from it, so filtering them loses no
    tuple and every one of them is taken. -/
theorem Walked.mem_offered_iff (nonempty : dfas ≠ []) {word : List Char} {key : Key}
    (walked : Walked dfas word key) (c : Char) :
    c ∈ offered dfas key ↔ (stepAll? dfas key c).isSome = true := by
  cases walked with
  | nil => contradiction
  | @cons dfa state dfas states first rest =>
    rw [offered, List.mem_filter, mem_labels_iff, stepsAll_iff, stepAll?]
    cases dfa.step? state c with
    | none => simp
    | some next => simp

private theorem product_step?_iff (wellFormed : ∀ dfa, dfa ∈ dfas → dfa.WellFormed)
    (nonempty : dfas ≠ []) {word : List Char} {key next : Key} {c : Char}
    (walked : Walked dfas word key) :
    (product dfas).step? key c = some next ↔ Walked dfas (word ++ [c]) next := by
  rw [← walked.stepAll?_iff]
  constructor
  · intro step
    exact (mem_product_next.mp (Graph.mem_of_lookup step)).2
  · intro taken
    apply Graph.lookup_of_mem (product_ordered wellFormed key)
    have offers := (walked.mem_offered_iff nonempty c).mpr (Option.isSome_of_eq_some taken)
    exact mem_product_next.mpr ⟨offers, taken⟩

/-- A walk through the product is a walk through every automaton. -/
theorem product_walk?_iff (wellFormed : ∀ dfa, dfa ∈ dfas → dfa.WellFormed)
    (nonempty : dfas ≠ []) (word : List Char) (key : Key) :
    (product dfas).walk? (product dfas).start word = some key ↔ Walked dfas word key := by
  induction word using List.reverseRecOn generalizing key with
  | nil =>
    show some (dfas.map start) = some key ↔ _
    rw [Option.some_inj, walked_nil_iff]
  | append_singleton word c ih =>
    rw [Graph.walk?_concat]
    constructor
    · intro walk
      obtain ⟨middle, before, step⟩ := Option.bind_eq_some_iff.mp walk
      exact (product_step?_iff wellFormed nonempty ((ih middle).mp before)).mp step
    · intro walked
      obtain ⟨middle, before⟩ := walked.before
      apply Option.bind_eq_some_iff.mpr
      exact ⟨middle, (ih middle).mpr before,
        (product_step?_iff wellFormed nonempty before).mpr walked⟩

/-! ### All tuples -/

/-- All tuples of states, one of each automaton. -/
def allTuples (dfas : List Dfa) : List Key :=
  (dfas.map fun dfa => List.range dfa.size).sections

theorem length_allTuples (dfas : List Dfa) : (allTuples dfas).length = tuples dfas := by
  induction dfas with
  | nil => rfl
  | cons dfa dfas ih =>
    rw [tuples, ← ih, Nat.mul_comm]
    simp [allTuples, List.sections, List.length_flatMap]

private theorem mem_allTuples_iff {key : Key} :
    key ∈ allTuples dfas ↔ List.Forall₂ (fun state dfa => state < dfa.size) key dfas := by
  simp [allTuples, List.mem_sections, List.forall₂_map_right_iff]

theorem product_universe (wellFormed : ∀ dfa, dfa ∈ dfas → dfa.WellFormed) :
    Exploration.Universe (product dfas) (allTuples dfas) := by
  constructor
  · apply mem_allTuples_iff.mpr
    apply List.forall₂_map_left_iff.mpr
    apply List.forall₂_same.mpr
    intro dfa member
    exact (wellFormed dfa member).start_lt
  · rintro key inside ⟨c, next⟩ member
    obtain ⟨-, taken⟩ := mem_product_next.mp member
    rw [mem_allTuples_iff] at inside ⊢
    clear member
    induction inside generalizing next with
    | nil =>
      obtain rfl := Option.some.inj taken
      exact .nil
    | @cons state dfa states dfas first rest ih =>
      rw [stepAll?] at taken
      cases step : dfa.step? state c with
      | none => simp [step] at taken
      | some target =>
        rw [step] at taken
        obtain ⟨targets, others, rfl⟩ := Option.map_eq_some_iff.mp taken
        refine .cons ?_ (ih (fun other member => wellFormed other (.tail _ member)) targets others)
        exact (wellFormed dfa (.head _)).edge_lt state _ (Graph.mem_of_lookup step)

/-! ### The search -/

/-- What leads to a tuple takes every automaton to its component. -/
theorem walked_of_walk? (wellFormed : ∀ dfa, dfa ∈ dfas → dfa.WellFormed) {word : List Char}
    {key : Key} (walk : (product dfas).walk? (product dfas).start word = some key) :
    Walked dfas word key := by
  by_cases nonempty : dfas = []
  · subst nonempty
    have closed := product_universe wellFormed
    have inside := mem_allTuples_iff.mp (closed.walk word closed.start walk)
    obtain rfl := List.forall₂_nil_right_iff.mp inside
    exact .nil
  · exact (product_walk?_iff wellFormed nonempty word key).mp walk

/-- Without automata every word takes all of them to the empty tuple, but no edge leaves it. -/
theorem Walked.leads (wellFormed : ∀ dfa, dfa ∈ dfas → dfa.WellFormed) {word : List Char}
    {key : Key} (walked : Walked dfas word key) : ∃ first, NotAfter first word ∧
      (product dfas).walk? (product dfas).start first = some key := by
  by_cases nonempty : dfas = []
  · subst nonempty
    obtain rfl := List.forall₂_nil_left_iff.mp walked
    exact ⟨[], notAfter_append [] word, rfl⟩
  · exact ⟨word, .inl rfl, (product_walk?_iff wellFormed nonempty word key).mpr walked⟩

/-- The search comes to its end. -/
theorem exploreProduct_spec (wellFormed : ∀ dfa, dfa ∈ dfas → dfa.WellFormed) :
    (exploreProduct dfas).Invariant (product dfas) ∧
      (exploreProduct dfas).Passed (acceptingAll dfas) ∧
      (exploreProduct dfas).Ended (acceptingAll dfas) :=
  Graph.explore_spec (product_ordered wellFormed) (product_universe wellFormed)
    (Nat.le_of_eq (length_allTuples dfas))

/-- The word found is that of the tuple that comes next at the end. -/
theorem commonWord_eq (wellFormed : ∀ dfa, dfa ∈ dfas → dfa.WellFormed) :
    commonWord dfas = (exploreProduct dfas).pending?.map Discovery.word := by
  obtain ⟨-, -, ended⟩ := exploreProduct_spec wellFormed
  cases due : (exploreProduct dfas).pending? with
  | none => simp [commonWord, search, due]
  | some discovery => simp [commonWord, search, due, ended discovery due]

/-! ### The least common word -/

private theorem Common.of_leads (wellFormed : ∀ dfa, dfa ∈ dfas → dfa.WellFormed) {word : List Char}
    (leads : (product dfas).Leads (acceptingAll dfas) word) : Common dfas word := by
  obtain ⟨key, walk, accepted⟩ := leads
  exact (walked_of_walk? wellFormed walk).acceptingAll_iff.mp accepted

private theorem Common.leads (wellFormed : ∀ dfa, dfa ∈ dfas → dfa.WellFormed) {word : List Char}
    (common : Common dfas word) :
    ∃ least, NotAfter least word ∧ (product dfas).Leads (acceptingAll dfas) least := by
  obtain ⟨key, walked⟩ := common.walked
  obtain ⟨first, early, walk⟩ := walked.leads wellFormed
  exact ⟨first, early, key, walk, walked.acceptingAll_iff.mpr common⟩

theorem commonWord_spec (wellFormed : ∀ dfa, dfa ∈ dfas → dfa.WellFormed) :
    (∃ word, commonWord dfas = some word ∧ Word.IsLeast (Common dfas) word) ∨
      (commonWord dfas = none ∧ ∀ word, ¬ Common dfas word) := by
  have ordered := product_ordered wellFormed
  have closed := product_universe wellFormed
  have enough : (allTuples dfas).length ≤ tuples dfas := Nat.le_of_eq (length_allTuples dfas)
  rw [commonWord_eq wellFormed]
  cases due : (exploreProduct dfas).pending? with
  | some discovery =>
    have least := Graph.isLeast_of_pending ordered closed enough due
    refine .inl ⟨discovery.word, rfl, Common.of_leads wellFormed least.1, ?_⟩
    intro other common distinct
    obtain ⟨first, early, leads⟩ := common.leads wellFormed
    exact ((least.notAfter leads).trans early).resolve_left distinct.symm
  | none =>
    refine .inr ⟨rfl, ?_⟩
    intro word common
    obtain ⟨other, -, leads⟩ := common.leads wellFormed
    exact Graph.not_leads_of_pending ordered closed enough due other leads

theorem commonWord_eq_some_iff (wellFormed : ∀ dfa, dfa ∈ dfas → dfa.WellFormed)
    (word : List Char) :
    commonWord dfas = some word ↔ Word.IsLeast (Common dfas) word := by
  rcases commonWord_spec wellFormed with ⟨found, same, least⟩ | ⟨nothing, none⟩
  · rw [same, Option.some_inj]
    constructor
    · rintro rfl
      exact least
    · intro also
      exact least.unique also
  · rw [nothing]
    constructor
    · intro found
      contradiction
    · intro least
      exact absurd least.1 (none word)

theorem commonWord_eq_none_iff (wellFormed : ∀ dfa, dfa ∈ dfas → dfa.WellFormed) :
    commonWord dfas = none ↔ ∀ word, ¬ Common dfas word := by
  rcases commonWord_spec wellFormed with ⟨found, same, least⟩ | ⟨nothing, none⟩
  · rw [same]
    constructor
    · intro nothing
      contradiction
    · intro none
      exact absurd least.1 (none found)
  · exact iff_of_true nothing none

theorem wellFormed_ofRegexes (regexes : List Regex) :
    ∀ dfa, dfa ∈ regexes.map (fun regex => ofNfa (Nfa.ofRegex regex)) → dfa.WellFormed := by
  intro dfa member
  obtain ⟨regex, -, rfl⟩ := List.mem_map.mp member
  exact wellFormed_ofNfa (Nfa.wellFormed_ofRegex regex)

/-- Over the automata of any expressions the search finds the word that all of them accept and that
    is shorter than every other such word, or of the same length and lexicographically smaller. It
    finds nothing exactly when there is no such word. -/
theorem commonWord_ofRegexes (regexes : List Regex) :
    let dfas := regexes.map fun regex => ofNfa (Nfa.ofRegex regex)
    (∀ word, commonWord dfas = some word ↔
      (∀ dfa, dfa ∈ dfas → dfa.accepts word = true) ∧
      ∀ other, (∀ dfa, dfa ∈ dfas → dfa.accepts other = true) → other ≠ word →
        word.length < other.length ∨ word.length = other.length ∧ word < other) ∧
    (commonWord dfas = none ↔
      ¬ ∃ word, ∀ dfa, dfa ∈ dfas → dfa.accepts word = true) := by
  intro dfas
  have wellFormed : ∀ dfa, dfa ∈ dfas → dfa.WellFormed := wellFormed_ofRegexes regexes
  constructor
  · intro word
    rw [commonWord_eq_some_iff wellFormed]
    simp only [Word.IsLeast, Common, precedes_iff]
  · rw [commonWord_eq_none_iff wellFormed, ← not_exists]
    rfl

end CommonWord.Dfa
