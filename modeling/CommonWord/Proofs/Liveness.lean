import CommonWord.Proofs.CanonicalForms

/-!
The automata of expressions have no dead states.

From every state of a fragment one of its accepting states can be reached, and a state from which
acceptance is taken has a move to where the fragment goes on. So each state of the deterministic
automaton is on the way to an accepting one, and a walk falls off exactly at the first character
that no word of the language has there.
-/

namespace CommonWord.Nfa

/-- From every state from one number up to another, some path leads to one of the targets. -/
def Live (nfa : Nfa) (low high : Nat) (targets : List Nat) : Prop :=
  ∀ state, low ≤ state → state < high → ∃ word, word ∈ nfa.words state targets

/-! ### Live blocks -/

section

variable {nfa other : Nfa} {low middle high : Nat} {left right targets : List Nat}

theorem Live.of_alike (live : nfa.Live low high targets) (keeps : nfa.Keeps low high)
    (alike : nfa.Alike other low high) : other.Live low high targets := by
  intro state above below
  rw [words_of_alike keeps alike above below]
  exact live state above below

private theorem Live.more (live : nfa.Live low high left) (right : List Nat) :
    nfa.Live low high (left ++ right) := by
  intro state above below
  obtain ⟨word, target, member, path⟩ := live state above below
  exact ⟨word, target, List.mem_append_left right member, path⟩

private theorem Live.append (first : nfa.Live low middle left)
    (second : nfa.Live middle high right) : nfa.Live low high (left ++ right) := by
  intro state above below
  rcases Nat.lt_or_ge state middle with inFirst | inSecond
  · exact first.more right state above inFirst
  · obtain ⟨word, target, member, path⟩ := second state inSecond below
    exact ⟨word, target, List.mem_append_right left member, path⟩

private theorem Live.push {arena : Arena} {new : State}
    (live : Live ⟨arena.push new, 0⟩ low arena.size targets)
    (own : ∃ word, word ∈ words ⟨arena.push new, 0⟩ arena.size targets) :
    Live ⟨arena.push new, 0⟩ low (arena.push new).size targets := by
  intro state above below
  rw [Array.size_push] at below
  rcases Nat.lt_succ_iff_lt_or_eq.mp below with inside | rfl
  · exact live state above inside
  · exact own

/-- A path to a state that is redirected goes on from where the redirection leads. -/
private theorem Live.redirect {sources : List Nat} {target : Nat}
    (live : nfa.Live low high (sources ++ targets))
    (redirects : nfa.Redirects other sources target)
    (onward : ∃ word, word ∈ nfa.words target targets) : other.Live low high targets := by
  intro state above below
  obtain ⟨word, reached⟩ := live state above below
  rw [words_append] at reached
  rw [redirects.words_eq]
  rcases reached with toSource | direct
  · obtain ⟨rest, toTarget⟩ := onward
    exact ⟨word ++ rest, .inr ⟨word, toSource, rest,
      ⟨[], Language.nil_mem_kstar _, rest, toTarget, rfl⟩, rfl⟩⟩
  · exact ⟨word, .inl direct⟩

end

/-! ### Fragments -/

namespace Fragment

section

variable {before middle after : Arena} {start next : Nat} {accepts others : List Nat}
  {first second : Language Char}
  (left : Block before middle start accepts first) (right : Block middle after next others second)
  (leftLive : Live ⟨middle, 0⟩ before.size middle.size accepts)
  (rightLive : Live ⟨after, 0⟩ middle.size after.size others)

private theorem live_epsilon (arena : Arena) :
    Live ⟨arena.push ⟨true, none, []⟩, 0⟩ arena.size (arena.push ⟨true, none, []⟩).size
      [arena.size] := by
  refine Live.push (fun state above below => absurd above (by omega)) ?_
  exact ⟨[], arena.size, .head _, .stay arena.size⟩

include left leftLive

private theorem Block.live_letter (c : Char) :
    Live ⟨middle.push ⟨false, some (c, start), []⟩, 0⟩ before.size
      (middle.push ⟨false, some (c, start), []⟩).size accepts := by
  obtain ⟨low, high⟩ := left.start_mem
  have older := leftLive.of_alike left.part.keeps
    (alike_push middle ⟨false, some (c, start), []⟩ before.size 0 0)
  obtain ⟨word, target, member, path⟩ := older start low high
  exact older.push ⟨c :: word, target, member, .edge (edge?_push ..) path⟩

include right rightLive

private theorem Block.live_both : Live ⟨after, 0⟩ before.size after.size (accepts ++ others) :=
  (leftLive.of_alike left.part.keeps (right.left_alike before.size)).append rightLive

private theorem Block.live_union :
    Live ⟨after.push ⟨false, none, [start, next]⟩, 0⟩ before.size
      (after.push ⟨false, none, [start, next]⟩).size (accepts ++ others) := by
  obtain ⟨low, high⟩ := left.start_mem
  obtain ⟨_, rightHigh⟩ := right.start_mem
  have older := (left.live_both right leftLive rightLive).of_alike (left.both right).keeps
    (alike_push after ⟨false, none, [start, next]⟩ before.size 0 0)
  obtain ⟨word, target, member, path⟩ := older start low (by omega)
  exact older.push ⟨word, target, member, .move (by simp) path⟩

private theorem Block.live_andThen : Live ⟨redirect accepts next after, 0⟩ before.size
    (redirect accepts next after).size others := by
  obtain ⟨low, high⟩ := right.start_mem
  have inside : ∀ state, state ∈ accepts → state < after.size := left.accepts_lt (by omega)
  rw [size_redirect]
  exact (left.live_both right leftLive rightLive).redirect
    (redirects_redirect inside next 0 0) (rightLive next low high)

omit right rightLive in
private theorem Block.live_star :
    Live ⟨redirect accepts middle.size (middle.push ⟨true, none, [start]⟩), 0⟩ before.size
      (redirect accepts middle.size (middle.push ⟨true, none, [start]⟩)).size [middle.size] := by
  have inside : ∀ state, state ∈ accepts →
      state < (middle.push (⟨true, none, [start]⟩ : State)).size := left.accepts_lt (by simp)
  have older := (leftLive.more [middle.size]).of_alike left.part.keeps
    (alike_push middle ⟨true, none, [start]⟩ before.size 0 0)
  have pushed := older.push ⟨[], middle.size, by simp, .stay middle.size⟩
  rw [size_redirect]
  exact pushed.redirect (redirects_redirect inside middle.size 0 0)
    ⟨[], middle.size, .head _, .stay middle.size⟩

end

/-- From every state of a fragment one of its accepting states can be reached. -/
theorem live_ofRegex (regex : Regex) (arena : Arena) :
    Live ⟨(ofRegex regex arena).arena, 0⟩ arena.size (ofRegex regex arena).arena.size
      (ofRegex regex arena).accepts := by
  induction regex generalizing arena with
  | epsilon => exact live_epsilon arena
  | char c => exact (block_epsilon arena).live_letter (live_epsilon arena) c
  | concat l r leftIh rightIh =>
    exact (block_ofRegex l arena).live_andThen (block_ofRegex r _) (leftIh arena) (rightIh _)
  | union l r leftIh rightIh =>
    exact (block_ofRegex l arena).live_union (block_ofRegex r _) (leftIh arena) (rightIh _)
  | star x ih => exact (block_ofRegex x arena).live_star (ih arena)

end Fragment

/-- From every state of the automaton of an expression an accepting one can be reached. -/
theorem exists_accepting_ahead (regex : Regex) {state : Nat}
    (inside : state < (ofRegex regex).size) : ∃ word target,
      (ofRegex regex).Path state word target ∧ (ofRegex regex).accepting target = true := by
  have part := (Fragment.block_ofRegex regex #[]).part
  have live := Fragment.live_ofRegex regex #[]
  rw [ofRegex, Fragment.build_eq_ofRegex] at inside ⊢
  obtain ⟨word, target, member, path⟩ := live state (Nat.zero_le _) inside
  exact ⟨word, target, path_restart path, part.accepting member⟩

end CommonWord.Nfa

namespace CommonWord.Dfa

/-! ### The deterministic automaton -/

private theorem walk?_append (dfa : Dfa) (state : Nat) (left right : List Char) :
    dfa.walk? state (left ++ right) = (dfa.walk? state left).bind (dfa.walk? · right) := by
  simp [walk?, List.foldlM_append]

theorem accepts_append_iff (dfa : Dfa) (word rest : List Char) :
    dfa.accepts (word ++ rest) = true ↔ ∃ state target, dfa.walk? dfa.start word = some state ∧
      dfa.walk? state rest = some target ∧ dfa.accepting target = true := by
  rw [accepts, walk?_append, Option.any_eq_true]
  simp only [Option.bind_eq_some_iff]
  constructor
  · rintro ⟨target, ⟨state, walked, onward⟩, accepting⟩
    exact ⟨state, target, walked, onward, accepting⟩
  · rintro ⟨state, target, walked, onward, accepting⟩
    exact ⟨target, ⟨state, walked, onward⟩, accepting⟩

/-- From every state an accepting one can be reached. -/
theorem exists_accepting_ahead (regex : Regex) {number : Nat}
    (inside : number < (ofNfa (Nfa.ofRegex regex)).size) : ∃ rest target,
      (ofNfa (Nfa.ofRegex regex)).walk? number rest = some target ∧
        (ofNfa (Nfa.ofRegex regex)).accepting target = true := by
  have wellFormed := Nfa.wellFormed_ofRegex regex
  obtain ⟨discovery, met, -, run, more⟩ :=
    exists_discovery wellFormed (Array.getElem?_eq_getElem inside)
  obtain ⟨member, known⟩ := List.exists_mem_of_ne_nil _ more
  rw [← run, Nfa.mem_run_iff wellFormed] at known
  have below := Nfa.Path.target_lt wellFormed known wellFormed.start_lt
  obtain ⟨rest, target, path, accepting⟩ := Nfa.exists_accepting_ahead regex below
  have accepted : discovery.word ++ rest ∈ regex.language :=
    (Nfa.reaches_accepting_iff regex _).mp ⟨target, known.append path, accepting⟩
  obtain ⟨state, final, walked, onward, good⟩ :=
    (accepts_append_iff _ _ _).mp ((accepts_iff_mem_language regex _).mpr accepted)
  obtain rfl := Option.some.inj ((isLeast_word wellFormed met).1.symm.trans walked)
  exact ⟨rest, final, onward, good⟩

/-- The automaton of an expression can walk over a word to its end exactly when some word of the
    language begins with it, and it can reach an accepting state from each of its states. -/
theorem no_dead_states (regex : Regex) :
    let dfa := ofNfa (Nfa.ofRegex regex)
    (∀ word, (∃ state, dfa.walk? dfa.start word = some state) ↔
      ∃ rest, word ++ rest ∈ regex.language) ∧
    ∀ state, state < dfa.size → ∃ rest target,
      dfa.walk? state rest = some target ∧ dfa.accepting target = true := by
  intro dfa
  refine ⟨fun word => ?_, fun state => exists_accepting_ahead regex⟩
  simp only [← accepts_iff_mem_language, accepts_append_iff]
  constructor
  · rintro ⟨state, walked⟩
    have inside := walk?_lt_size (Nfa.wellFormed_ofRegex regex) walked
    obtain ⟨rest, target, onward, accepting⟩ := exists_accepting_ahead regex inside
    exact ⟨rest, state, target, walked, onward, accepting⟩
  · rintro ⟨_, state, _, walked, -⟩
    exact ⟨state, walked⟩

end CommonWord.Dfa
