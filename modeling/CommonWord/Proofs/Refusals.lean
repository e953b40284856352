import CommonWord.Proofs.Reading

/-!
Reading stops at the first character with which no text of the grammar goes on.

A reader can be led to an end from every state it comes to, by a letter where a term is missing and
a parenthesis for each open group. What it expects where it stops is seen from the text before that
place: from its last character, and from how many groups are open.
-/

namespace CommonWord.Regex

/-! ### Texts after which a term must follow -/

/-- A text is empty, or ends with an opening parenthesis or a bar. -/
def WantsTerm (text : List Char) : Prop :=
  text = [] ∨ text.getLast? = some '(' ∨ text.getLast? = some '|'

private theorem wantsTerm_append_singleton (text : List Char) (c : Char) :
    WantsTerm (text ++ [c]) ↔ c = '(' ∨ c = '|' := by
  simp [WantsTerm]

private theorem not_wantsTerm_append (left : List Char) {right : List Char}
    (complete : ¬ WantsTerm right) : ¬ WantsTerm (left ++ right) := by
  rcases List.eq_nil_or_concat right with rfl | ⟨front, c, rfl⟩
  · exact absurd (.inl rfl) complete
  · rw [List.concat_eq_append, wantsTerm_append_singleton] at complete
    rwa [List.concat_eq_append, ← List.append_assoc, wantsTerm_append_singleton]

private theorem Derives.not_wantsTerm {phrase : Phrase} {text : List Char} {regex : Regex}
    (derived : Derives phrase text regex) : ¬ WantsTerm text := by
  induction derived with
  | @letter c low high =>
    have plain : c ≠ '(' ∧ c ≠ '|' := by
      constructor
      · rintro rfl
        exact absurd low (by decide)
      · rintro rfl
        exact absurd high (by decide)
    simpa [WantsTerm] using plain
  | group content suffixed ih =>
    apply not_wantsTerm_append
    cases suffixed <;> simp [WantsTerm]
  | single only ih => exact ih
  | @both left right first second before after beforeIh afterIh =>
    have apart : left ++ '|' :: right = (left ++ ['|']) ++ right := by simp
    rw [apart]
    exact not_wantsTerm_append _ afterIh
  | one only ih => exact ih
  | more before after beforeIh afterIh => exact not_wantsTerm_append _ afterIh

namespace Reader

/-- Nothing was read of a level exactly where a term must follow. -/
private theorem Holds.chain_eq_none_iff {text : List Char} {reader : Reader}
    (holds : Holds text reader)
    (settled : reader.group = none) : reader.current.chain = none ↔ WantsTerm text := by
  obtain ⟨outer, part, last, rfl, around, ⟨front, back, rfl, before, chained⟩, ended⟩ := holds.split
  obtain ⟨enclosing, ⟨before?, chain?⟩, group⟩ := reader
  obtain rfl : group = none := settled
  cases ended
  rw [List.append_nil]
  cases chained with
  | expression derived =>
    have complete := not_wantsTerm_append (outer ++ front) derived.not_wantsTerm
    rw [← List.append_assoc]
    exact iff_of_false (by simp) complete
  | nothing =>
    refine iff_of_true rfl ?_
    rw [List.append_nil]
    cases before with
    | bar derived =>
      rw [← List.append_assoc, wantsTerm_append_singleton]
      exact .inr rfl
    | nothing =>
      rw [List.append_nil]
      cases around with
      | outside => exact .inl rfl
      | inside around read topmost =>
        rw [wantsTerm_append_singleton]
        exact .inl rfl

/-! ### Leading a reader to an end -/

private theorem finish_of_filled {text : List Char} {reader : Reader} (holds : Holds text reader)
    (outside : reader.enclosing = []) (filled : reader.settle.current.chain ≠ none) :
    ∃ regex, reader.finish = .ok regex := by
  have settled : reader.settle.enclosing = [] := by rw [settle_enclosing, outside]
  have topmost := holds.settle.topmost settled
  obtain ⟨regex, chain⟩ := Option.ne_none_iff_exists'.mp filled
  exact ⟨regex, by simp [finish, outside, Level.value?, topmost, chain]⟩

private theorem step_close {reader : Reader} {outer : Level} {outers : List Level}
    (enclosing : reader.enclosing = outer :: outers)
    (filled : reader.settle.current.chain ≠ none) :
    ∃ inner, reader.step ')' = .ok ⟨outers, outer, some inner⟩ := by
  obtain ⟨chain, read⟩ := Option.ne_none_iff_exists'.mp filled
  obtain ⟨inner, value⟩ : ∃ inner, reader.settle.current.value? = some inner := by
    unfold Level.value?
    split
    · exact ⟨chain, read⟩
    · simp_all
    · exact ⟨_, rfl⟩
  refine ⟨inner, ?_⟩
  have settled : reader.settle = ⟨outer :: outers, reader.settle.current, none⟩ := by
    rw [← enclosing, ← reader.settle_enclosing, ← reader.settle_group]
  rw [step_other rfl, settled, read_close value]

private theorem settle_chain_ne_none (outers : List Level) (outer : Level) (inner : Regex) :
    (Reader.mk outers outer (some inner)).settle.current.chain ≠ none := by
  simp only [settle, Level.push]
  split <;> simp

/-- Where no term is missing, closing the open groups leads to an end. -/
private theorem Holds.closes {text : List Char} {reader : Reader} (holds : Holds text reader)
    (filled : reader.settle.current.chain ≠ none) : ∃ last regex,
      reader.after (List.replicate reader.enclosing.length ')') = .ok last ∧
        last.finish = .ok regex := by
  generalize enclosing : reader.enclosing = levels
  induction levels generalizing text reader with
  | nil =>
    obtain ⟨regex, finished⟩ := finish_of_filled holds enclosing filled
    exact ⟨reader, regex, after_nil reader, finished⟩
  | cons outer outers ih =>
    obtain ⟨inner, closed⟩ := step_close enclosing filled
    obtain ⟨last, regex, read, finished⟩ :=
      ih (holds.step closed) (settle_chain_ne_none outers outer inner) rfl
    exact ⟨last, regex, (after_cons_iff ..).mpr ⟨_, closed, read⟩, finished⟩

/-- From every state of the reader some text leads to an end. -/
theorem Holds.completes {text : List Char} {reader : Reader} (holds : Holds text reader) :
    ∃ rest last regex, reader.after rest = .ok last ∧ last.finish = .ok regex := by
  by_cases missing : reader.settle.current.chain = none
  · have letter : reader.step 'a' = .ok (reader.add (char 'a')) := by
      rw [step_other rfl, read_letter (by decide) (by decide)]
      rfl
    have filled : (reader.add (char 'a')).settle.current.chain ≠ none := by
      rw [settle_eq_self (by simp [add])]
      simp [add, Level.push, missing]
    obtain ⟨last, regex, read, finished⟩ := (holds.step letter).closes filled
    exact ⟨_, last, regex, (after_cons_iff ..).mpr ⟨_, letter, read⟩, finished⟩
  · obtain ⟨last, regex, read, finished⟩ := holds.closes missing
    exact ⟨_, last, regex, read, finished⟩

/-! ### What is refused, and what is expected there -/

/-- The reader does not take this character, or may not stop where there is none. -/
def Refuses (reader : Reader) (expected : Expected) : Option Char → Prop
  | none => reader.finish = .error expected
  | some c => reader.step c = .error expected

theorem run_append {front : List Char} {reader last : Reader}
    (read : reader.after front = .ok last) (rest : List Char) (position : Nat) :
    run (front ++ rest) position reader = run rest (position + front.length) last := by
  induction front generalizing reader position with
  | nil =>
    obtain rfl := Except.ok.inj read
    rfl
  | cons c front ih =>
    obtain ⟨next, stepped, more⟩ := (after_cons_iff ..).mp read
    have further := ih more (position + 1)
    rw [List.cons_append, run, stepped, List.length_cons, Nat.add_comm front.length,
      ← Nat.add_assoc]
    exact further

theorem Refuses.run_eq {reader : Reader} {expected : Expected} (rest : List Char)
    (refused : reader.Refuses expected rest.head?) (position : Nat) :
    run rest position reader = .error ⟨position, rest.head?, expected⟩ := by
  cases rest with
  | nil =>
    have stopped : reader.finish = .error expected := refused
    rw [run, stopped]
    rfl
  | cons c rest =>
    have stopped : reader.step c = .error expected := refused
    rw [run, stopped]
    rfl

/-- A text that is refused is read to a place at which the reader refuses what comes next. -/
private theorem run_error_cases {text : List Char} {position : Nat} {reader : Reader}
    {error : SyntaxError} (refused : run text position reader = .error error) :
    ∃ front rest last, text = front ++ rest ∧ reader.after front = .ok last ∧
      error.position = position + front.length ∧ error.found = rest.head? ∧
      last.Refuses error.expected error.found := by
  induction text generalizing position reader with
  | nil =>
    rw [run] at refused
    cases finished : reader.finish with
    | ok regex => simp [finished] at refused
    | error expected =>
      rw [finished] at refused
      obtain rfl := Except.error.inj refused
      exact ⟨[], [], reader, rfl, after_nil reader, rfl, rfl, finished⟩
  | cons c rest ih =>
    rw [run] at refused
    cases stepped : reader.step c with
    | error expected =>
      rw [stepped] at refused
      obtain rfl := Except.error.inj refused
      exact ⟨[], c :: rest, reader, rfl, after_nil reader, rfl, rfl, stepped⟩
    | ok next =>
      rw [stepped] at refused
      obtain ⟨front, after, last, rfl, read, place, found, stopped⟩ := ih refused
      refine ⟨c :: front, after, last, rfl, (after_cons_iff ..).mpr ⟨next, stepped, read⟩, ?_,
        found, stopped⟩
      rw [place, List.length_cons]
      omega

private theorem step_refused {reader : Reader} {c : Char} {expected : Expected} (other : c ≠ '(')
    (refused : reader.step c = .error expected) : expected = reader.settle.expected := by
  unfold step at refused
  split at refused
  · contradiction
  · unfold read at refused
    split_ifs at refused
    · split at refused
      · contradiction
      · exact (Except.error.inj refused).symm
    · split at refused
      · contradiction
      · exact (Except.error.inj refused).symm
    · exact (Except.error.inj refused).symm

private theorem step_open_refused {reader : Reader} {expected : Expected}
    (refused : reader.step '(' = .error expected) :
    expected = .letter ∧ maxDepth ≤ reader.enclosing.length := by
  rw [step_other rfl] at refused
  by_cases deep : maxDepth ≤ reader.enclosing.length
  · have other : Char.isLower '(' = false := rfl
    simp only [read, other, settle_enclosing, deep, if_true] at refused
    exact ⟨(Except.error.inj refused).symm, deep⟩
  · rw [read_open (by simpa using deep)] at refused
    contradiction

theorem step_open_deep {reader : Reader} (deep : maxDepth ≤ reader.enclosing.length) :
    reader.step '(' = .error .letter := by
  have other : Char.isLower '(' = false := rfl
  rw [step_other rfl]
  simp [read, other, deep]

private theorem finish_refused {reader : Reader} {expected : Expected}
    (refused : reader.finish = .error expected) : expected = reader.settle.expected := by
  simp only [finish] at refused
  split at refused
  · contradiction
  · exact (Except.error.inj refused).symm

/-- Nothing but one more group asks for a letter, and that only where groups are as deep as they
    may be. -/
theorem Holds.refuses {text : List Char} {reader : Reader} {expected : Expected}
    {found : Option Char} (holds : Holds text reader) (refused : reader.Refuses expected found) :
    (found = some '(' ∧ expected = .letter ∧ reader.enclosing.length = maxDepth) ∨
      (found ≠ some '(' ∧ expected = reader.settle.expected) := by
  cases found with
  | none => exact .inr ⟨by simp, finish_refused refused⟩
  | some c =>
    by_cases opening : c = '('
    · subst opening
      obtain ⟨letter, deep⟩ := step_open_refused refused
      exact .inl ⟨rfl, letter, Nat.le_antisymm holds.shallow deep⟩
    · exact .inr ⟨by simpa using opening, step_refused opening refused⟩

private theorem expected_ne_letter (reader : Reader) : reader.expected ≠ .letter := by
  unfold expected
  split_ifs <;> simp

private theorem Holds.expected_eq {text : List Char} {reader : Reader} (holds : Holds text reader) :
    (WantsTerm text → reader.settle.expected = .term) ∧
    (¬ WantsTerm text → 1 ≤ reader.enclosing.length → reader.settle.expected = .closeParen) ∧
    (¬ WantsTerm text → reader.enclosing.length = 0 → reader.settle.expected = .termOrEnd) := by
  rw [← holds.settle.chain_eq_none_iff reader.settle_group]
  refine ⟨?_, ?_, ?_⟩
  · intro missing
    simp [expected, missing]
  · intro filled inside
    have deeper : reader.enclosing ≠ [] := List.ne_nil_of_length_pos inside
    simp [expected, filled, deeper]
  · intro filled outside
    simp [expected, filled, List.length_eq_zero_iff.mp outside]

end Reader

/-! ### Where a text stops being one of the grammar -/

/-- A text that is no expression is refused at the first place at which it cannot go on: what stands
    before can be completed to an expression, but not together with the character that is found
    there, which is always refused with the same error. A letter is expected exactly where a group
    is found that would be too deep. Otherwise a term is expected where one must follow, or else
    the end of the innermost open group, or else the end of the text. -/
theorem parse_refused_at_first (text : List Char) (error : SyntaxError)
    (refused : parse text = .error error) :
    let front := text.take error.position
    let opened : Int := front.count '(' - front.count ')'
    error.found = text[error.position]? ∧ (error.found = none ↔ error.position = text.length) ∧
    (∃ rest regex, parse (front ++ rest) = .ok regex) ∧
    (∀ c, error.found = some c → ∀ rest, parse (front ++ c :: rest) = .error error) ∧
    (error.expected = .letter ↔ error.found = some '(') ∧
    (error.found = some '(' → opened = 256) ∧
    (error.found ≠ some '(' →
      (WantsTerm front → error.expected = .term) ∧
      (¬ WantsTerm front → 1 ≤ opened → error.expected = .closeParen) ∧
      (¬ WantsTerm front → opened < 1 → error.expected = .termOrEnd ∧ opened = 0)) := by
  intro front opened
  obtain ⟨before, rest, last, rfl, read, place, found, stopped⟩ := Reader.run_error_cases refused
  rw [Nat.zero_add] at place
  obtain same : front = before := by simp [front, place]
  clear_value front
  subst same
  have holds : last.Holds front := by simpa using Reader.holds_initial.after read
  have count := holds.count
  refine ⟨?_, ?_, ?_, ?_, ?_⟩
  · rw [found, place, List.getElem?_append_right (Nat.le_refl _), Nat.sub_self,
      List.head?_eq_getElem?]
  · rw [found, place, List.head?_eq_none_iff, List.length_append]
    simp
  · obtain ⟨ending, final, regex, more, finished⟩ := holds.completes
    refine ⟨ending, regex, (Reader.run_eq_ok_iff ..).mpr ⟨final, ?_, finished⟩⟩
    exact (Reader.after_append_iff ..).mpr ⟨last, read, more⟩
  · intro c same other
    obtain ⟨position, next, expected⟩ := error
    obtain rfl : next = some c := same
    rw [parse, Reader.run_append read, Nat.zero_add, ← place]
    exact Reader.Refuses.run_eq (c :: other) stopped position
  · rcases holds.refuses stopped with ⟨opening, letter, deep⟩ | ⟨other, expected⟩
    · refine ⟨iff_of_true letter opening, fun _ => ?_, fun apart => absurd opening apart⟩
      rw [deep, maxDepth] at count
      omega
    · obtain ⟨term, close, ended⟩ := holds.expected_eq
      rw [← expected] at term close ended
      have plain : error.expected ≠ .letter := expected ▸ last.settle.expected_ne_letter
      refine ⟨iff_of_false plain other, fun same => absurd same other, fun _ => ?_⟩
      refine ⟨term, fun filled inside => close filled (by omega), fun filled outside => ?_⟩
      exact ⟨ended filled (by omega), by omega⟩

theorem parse_refused_at_first_accent :
    parse "c(a|(b)*é)".toList = .error ⟨8, some 'é', .closeParen⟩ ∧
    (∃ rest regex, parse ("c(a|(b)*".toList ++ rest) = .ok regex) ∧
    ∀ rest, parse ("c(a|(b)*".toList ++ 'é' :: rest) = .error ⟨8, some 'é', .closeParen⟩ := by
  have refused : parse "c(a|(b)*é)".toList = .error ⟨8, some 'é', .closeParen⟩ := by
    rfl
  obtain ⟨-, -, before, after, -⟩ := parse_refused_at_first _ _ refused
  exact ⟨refused, before, after 'é' rfl⟩

end CommonWord.Regex
