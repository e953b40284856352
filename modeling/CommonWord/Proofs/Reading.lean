import CommonWord.Proofs.Nesting
import CommonWord.Regex.Parser
import Mathlib.Tactic.ByContra
import Mathlib.Tactic.SplitIfs

/-!
The reader accepts exactly the texts of the grammar and gives the tree of the derivation.

Every state of the reader stands for the text read so far: the open groups split it into parts, and
each part is derived as far as it goes. Conversely a derivation drives the reader through its text.
-/

namespace CommonWord.Regex

namespace Reader

/-- The reader after a text, or what was expected where it stopped. -/
def after (reader : Reader) (text : List Char) : Except Expected Reader :=
  text.foldlM step reader

theorem after_nil (reader : Reader) : reader.after [] = .ok reader := rfl

theorem after_cons_iff (reader last : Reader) (c : Char) (rest : List Char) :
    reader.after (c :: rest) = .ok last ↔
      ∃ next, reader.step c = .ok next ∧ next.after rest = .ok last := by
  simp only [after, List.foldlM_cons]
  cases stepped : reader.step c with
  | error expected => simp [bind, Except.bind]
  | ok next => simp [bind, Except.bind]

theorem after_append_iff (reader last : Reader) (left right : List Char) :
    reader.after (left ++ right) = .ok last ↔
      ∃ middle, reader.after left = .ok middle ∧ middle.after right = .ok last := by
  induction left generalizing reader with
  | nil => simp [after_nil]
  | cons c left ih =>
    rw [List.cons_append, after_cons_iff]
    constructor
    · rintro ⟨next, stepped, rest⟩
      obtain ⟨middle, front, back⟩ := (ih next).mp rest
      exact ⟨middle, (after_cons_iff reader middle c left).mpr ⟨next, stepped, front⟩, back⟩
    · rintro ⟨middle, front, back⟩
      obtain ⟨next, stepped, rest⟩ := (after_cons_iff reader middle c left).mp front
      exact ⟨next, stepped, (ih next).mpr ⟨middle, rest, back⟩⟩

/-- A text is read when every character of it is and the reader may stop after it. -/
theorem run_eq_ok_iff (text : List Char) (position : Nat) (reader : Reader) (regex : Regex) :
    run text position reader = .ok regex ↔
      ∃ last, reader.after text = .ok last ∧ last.finish = .ok regex := by
  induction text generalizing position reader with
  | nil =>
    rw [run, after_nil]
    cases finished : reader.finish with
    | error expected => simp [finished]
    | ok found => simp [finished]
  | cons c rest ih =>
    rw [run]
    cases stepped : reader.step c with
    | error expected => simp [after_cons_iff, stepped]
    | ok next => simp [after_cons_iff, stepped, ih]

/-! ### What one character does -/

@[simp] theorem settle_group (reader : Reader) : reader.settle.group = none := by
  unfold settle
  split <;> simp [*]

@[simp] theorem settle_enclosing (reader : Reader) :
    reader.settle.enclosing = reader.enclosing := by
  unfold settle
  split <;> rfl

theorem settle_eq_self {reader : Reader} (apart : reader.group = none) :
    reader.settle = reader := by
  simp [settle, apart]

end Reader

private theorem suffix?_eq_some_iff (c : Char) (wrap : Regex → Regex) :
    suffix? c = some wrap ↔ Suffix [c] wrap := by
  constructor
  · intro found
    unfold suffix? at found
    split_ifs at found with asterisk plus question
    · obtain rfl := Option.some.inj found; exact asterisk ▸ .star
    · obtain rfl := Option.some.inj found; exact plus ▸ .plus
    · obtain rfl := Option.some.inj found; exact question ▸ .optional
  · intro suffixed
    cases suffixed <;> rfl

private theorem letter_bounds {c : Char} : c.isLower = true ↔ 'a' ≤ c ∧ c ≤ 'z' := by
  show (decide ('a' ≤ c) && decide (c ≤ 'z')) = true ↔ _
  rw [Bool.and_eq_true, decide_eq_true_eq, decide_eq_true_eq]

private theorem suffix?_letter {c : Char} (low : 'a' ≤ c) : suffix? c = none := by
  have ordinary : c ≠ '*' ∧ c ≠ '+' ∧ c ≠ '?' := by
    refine ⟨?_, ?_, ?_⟩ <;> rintro rfl <;> exact absurd low (by decide)
  simp [suffix?, ordinary.1, ordinary.2.1, ordinary.2.2]

namespace Reader

private theorem step_suffix {reader : Reader} {group : Regex} {c : Char} {wrap : Regex → Regex}
    (closed : reader.group = some group) (suffixed : Suffix [c] wrap) :
    reader.step c = .ok ⟨reader.enclosing, reader.current.push (wrap group), none⟩ := by
  simp [step, closed, (suffix?_eq_some_iff c wrap).mpr suffixed]

theorem step_other {reader : Reader} {c : Char} (other : suffix? c = none) :
    reader.step c = reader.settle.read c := by
  simp [step, other]

/-- All that can come of one character. -/
private theorem read_cases {reader next : Reader} {c : Char} (done : reader.read c = .ok next) :
    (('a' ≤ c ∧ c ≤ 'z') ∧ next = { reader with current := reader.current.push (char c) }) ∨
    (c = '(' ∧ reader.enclosing.length < maxDepth ∧
      next = ⟨reader.current :: reader.enclosing, .empty, none⟩) ∨
    (c = ')' ∧ ∃ outer outers inner, reader.enclosing = outer :: outers ∧
      reader.current.value? = some inner ∧ next = ⟨outers, outer, some inner⟩) ∨
    (c = '|' ∧ ∃ first, reader.enclosing ≠ [] ∧ reader.current = ⟨none, some first⟩ ∧
      next = { reader with current := ⟨some first, none⟩ }) := by
  unfold read at done
  split_ifs at done with letter opening deep closing bar
  · exact .inl ⟨letter_bounds.mp letter, (Except.ok.inj done).symm⟩
  · exact .inr (.inl ⟨opening, by omega, (Except.ok.inj done).symm⟩)
  · split at done
    · next outer outers inner enclosing value =>
      exact .inr (.inr (.inl ⟨closing, outer, outers, inner, enclosing, value,
        (Except.ok.inj done).symm⟩))
    · contradiction
  · split at done
    · next outer outers first enclosing current =>
      exact .inr (.inr (.inr ⟨bar, first, by simp [enclosing], current,
        (Except.ok.inj done).symm⟩))
    · contradiction

theorem read_letter {reader : Reader} {c : Char} (low : 'a' ≤ c) (high : c ≤ 'z') :
    reader.read c = .ok { reader with current := reader.current.push (char c) } := by
  simp [read, letter_bounds.mpr ⟨low, high⟩]

theorem read_open {reader : Reader} (shallow : reader.enclosing.length < maxDepth) :
    reader.read '(' = .ok ⟨reader.current :: reader.enclosing, .empty, none⟩ := by
  have enough : ¬ maxDepth ≤ reader.enclosing.length := by omega
  have other : Char.isLower '(' = false := rfl
  simp [read, other, enough]

theorem read_close {outer current : Level} {outers : List Level} {inner : Regex}
    (value : current.value? = some inner) :
    (Reader.mk (outer :: outers) current none).read ')' = .ok ⟨outers, outer, some inner⟩ := by
  have other : Char.isLower ')' = false := rfl
  simp [read, other, value]

private theorem read_bar {outer : Level} {outers : List Level} {first : Regex} :
    (Reader.mk (outer :: outers) ⟨none, some first⟩ none).read '|' =
      .ok ⟨outer :: outers, ⟨some first, none⟩, none⟩ := by
  have other : Char.isLower '|' = false := rfl
  simp [read, other]

/-! ### A derivation drives the reader -/

/-- The reader with one more term at its end. -/
def add (reader : Reader) (term : Regex) : Reader :=
  { reader.settle with current := reader.settle.current.push term }

end Reader

/-- Inside the right surroundings the reader takes a phrase for this tree. -/
private def Taken (text : List Char) (regex : Regex) : Phrase → Prop
  | .term => ∀ reader : Reader, Fits reader.enclosing.length text →
      ∃ last, reader.after text = .ok last ∧ last.settle = reader.add regex
  | .expression => ∀ reader : Reader, reader.settle.current.chain = none →
      Fits reader.enclosing.length text →
      ∃ last, reader.after text = .ok last ∧ last.settle = reader.add regex
  | .content => ∀ outer outers, Fits (outers.length + 1) text →
      ∃ last level, (Reader.mk (outer :: outers) .empty none).after text = .ok last ∧
        last.settle = ⟨outer :: outers, level, none⟩ ∧ level.value? = some regex

private theorem taken_letter {c : Char} (low : 'a' ≤ c) (high : c ≤ 'z') :
    Taken [c] (char c) .term := by
  intro reader _
  have stepped : reader.step c = .ok (reader.add (char c)) := by
    rw [Reader.step_other (suffix?_letter low), Reader.read_letter low high]
    rfl
  refine ⟨reader.add (char c), ?_, Reader.settle_eq_self (by simp [Reader.add])⟩
  exact (Reader.after_cons_iff ..).mpr ⟨_, stepped, Reader.after_nil _⟩

private theorem taken_suffix (reader : Reader) {group : Regex} {suffix : List Char}
    {wrap : Regex → Regex} (closed : reader.group = some group) (suffixed : Suffix suffix wrap) :
    ∃ last, reader.after suffix = .ok last ∧
      last.settle = ⟨reader.enclosing, reader.current.push (wrap group), none⟩ := by
  rcases suffix with _ | ⟨c, rest⟩
  · cases suffixed
    exact ⟨reader, Reader.after_nil reader, by simp [Reader.settle, closed]⟩
  · obtain rfl : rest = [] := by cases suffixed <;> rfl
    refine ⟨⟨reader.enclosing, reader.current.push (wrap group), none⟩, ?_, rfl⟩
    exact (Reader.after_cons_iff ..).mpr
      ⟨_, Reader.step_suffix closed suffixed, Reader.after_nil _⟩

private theorem taken_group {inside suffix : List Char} {inner : Regex} {wrap : Regex → Regex}
    (nested : Nested inside) (content : Taken inside inner .content)
    (suffixed : Suffix suffix wrap) :
    Taken ('(' :: inside ++ ')' :: suffix) (wrap inner) .term := by
  intro reader fits
  obtain ⟨shallow, deeper⟩ := fits.inside nested
  have opened : reader.step '(' =
      .ok ⟨reader.settle.current :: reader.enclosing, .empty, none⟩ := by
    rw [Reader.step_other rfl, Reader.read_open (by simpa using shallow), Reader.settle_enclosing]
  obtain ⟨filled, level, within, settled, value⟩ :=
    content reader.settle.current reader.enclosing deeper
  have closed : filled.step ')' = .ok ⟨reader.enclosing, reader.settle.current, some inner⟩ := by
    rw [Reader.step_other rfl, settled, Reader.read_close value]
  obtain ⟨last, suffixRead, lastSettled⟩ :=
    taken_suffix ⟨reader.enclosing, reader.settle.current, some inner⟩ rfl suffixed
  refine ⟨last, ?_, ?_⟩
  · refine (Reader.after_cons_iff ..).mpr ⟨_, opened, ?_⟩
    refine (Reader.after_append_iff ..).mpr ⟨filled, within, ?_⟩
    exact (Reader.after_cons_iff ..).mpr ⟨_, closed, suffixRead⟩
  · rw [lastSettled, Reader.add, Reader.settle_group, Reader.settle_enclosing]

private theorem taken_more {front last : List Char} {chain next : Regex} (nested : Nested front)
    (before : Taken front chain .expression) (after : Taken last next .term) :
    Taken (front ++ last) (concat chain next) .expression := by
  intro reader fresh fits
  obtain ⟨middle, frontRead, middleSettled⟩ := before reader fresh fits.left
  have depth : middle.enclosing.length = reader.enclosing.length := by
    rw [← middle.settle_enclosing, middleSettled, Reader.add, Reader.settle_enclosing]
  obtain ⟨final, lastRead, finalSettled⟩ := after middle (depth ▸ fits.right nested)
  refine ⟨final, (Reader.after_append_iff ..).mpr ⟨middle, frontRead, lastRead⟩, ?_⟩
  rw [finalSettled, Reader.add, middleSettled]
  simp [Reader.add, Level.push, fresh]

private theorem taken_both {left right : List Char} {first second : Regex} (nested : Nested left)
    (before : Taken left first .expression) (after : Taken right second .expression) :
    Taken (left ++ '|' :: right) (union first second) .content := by
  intro outer outers fits
  obtain ⟨middle, leftRead, middleSettled⟩ :=
    before ⟨outer :: outers, .empty, none⟩ rfl fits.left
  have bar : middle.step '|' = .ok ⟨outer :: outers, ⟨some first, none⟩, none⟩ := by
    rw [Reader.step_other rfl, middleSettled]
    exact Reader.read_bar
  have separator : Nested ['|'] := nested_plain (by decide) (by decide)
  have rightFits : Fits (outers.length + 1) right := (fits.right nested).right separator
  obtain ⟨final, rightRead, finalSettled⟩ :=
    after ⟨outer :: outers, ⟨some first, none⟩, none⟩ rfl rightFits
  refine ⟨final, ⟨some first, some second⟩, ?_, finalSettled, rfl⟩
  refine (Reader.after_append_iff ..).mpr ⟨middle, leftRead, ?_⟩
  exact (Reader.after_cons_iff ..).mpr ⟨_, bar, rightRead⟩

/-- The reader takes every derived phrase that does not nest too deep. -/
private theorem Derives.taken {phrase : Phrase} {text : List Char} {regex : Regex}
    (derived : Derives phrase text regex) : Taken text regex phrase := by
  induction derived with
  | letter low high => exact taken_letter low high
  | group content suffixed ih => exact taken_group content.nested ih suffixed
  | single only ih =>
    intro outer outers fits
    obtain ⟨last, read, settled⟩ := ih ⟨outer :: outers, .empty, none⟩ rfl fits
    exact ⟨last, _, read, settled, rfl⟩
  | both before after beforeIh afterIh => exact taken_both before.nested beforeIh afterIh
  | one only ih => exact fun reader _ fits => ih reader fits
  | more before after beforeIh afterIh => exact taken_more before.nested beforeIh afterIh

/-- Every text of the grammar is read as the tree of its derivation. -/
theorem Reads.parse_eq {text : List Char} {regex : Regex} (reads : Reads text regex) :
    parse text = .ok regex := by
  have fits : Fits 0 text := (fits_zero_iff text).mpr reads.2
  obtain ⟨last, read, settled⟩ := reads.1.taken .initial rfl fits
  refine (Reader.run_eq_ok_iff ..).mpr ⟨last, read, ?_⟩
  rw [Reader.finish, settled]
  rfl

/-! ### A state of the reader stands for the text before it -/

/-- A text is the expression in a chain, or empty where nothing was read. -/
inductive ChainReads : List Char → Option Regex → Prop where
  | nothing : ChainReads [] none
  | expression {text : List Char} {chain : Regex} (derived : Derives .expression text chain) :
      ChainReads text (some chain)

/-- A text is an alternative with the bar after it, or empty where there is none. -/
inductive BeforeReads : List Char → Option Regex → Prop where
  | nothing : BeforeReads [] none
  | bar {text : List Char} {first : Regex} (derived : Derives .expression text first) :
      BeforeReads (text ++ ['|']) (some first)

/-- A text is what was read of a level. -/
def LevelReads (text : List Char) (level : Level) : Prop :=
  ∃ front back, text = front ++ back ∧ BeforeReads front level.before ∧
    ChainReads back level.chain

/-- A text is the group just closed, or empty where there is none. -/
inductive GroupReads : List Char → Option Regex → Prop where
  | nothing : GroupReads [] none
  | closed {inside : List Char} {inner : Regex} (content : Derives .content inside inner) :
      GroupReads ('(' :: inside ++ [')']) (some inner)

/-- A text ends with the parenthesis of the innermost of these open groups, the levels around
    which are read from what stands before their parentheses. -/
inductive Encloses : List Char → List Level → Prop where
  | outside : Encloses [] []
  | inside {text part : List Char} {level : Level} {levels : List Level}
      (around : Encloses text levels) (read : LevelReads part level)
      (topmost : levels = [] → level.before = none) :
      Encloses (text ++ part ++ ['(']) (level :: levels)

/-- A reader stands for a text. -/
structure Reader.Holds (text : List Char) (reader : Reader) : Prop where
  split : ∃ outer part last, text = outer ++ part ++ last ∧ Encloses outer reader.enclosing ∧
    LevelReads part reader.current ∧ GroupReads last reader.group
  topmost : reader.enclosing = [] → reader.current.before = none
  shallow : reader.enclosing.length ≤ maxDepth

private theorem Level.push_before (level : Level) (term : Regex) :
    (level.push term).before = level.before := by
  unfold Level.push
  split <;> rfl

private theorem LevelReads.push {part last : List Char} {level : Level} {term : Regex}
    (read : LevelReads part level) (derived : Derives .term last term) :
    LevelReads (part ++ last) (level.push term) := by
  obtain ⟨front, back, rfl, before, chained⟩ := read
  obtain ⟨before?, chain?⟩ := level
  refine ⟨front, back ++ last, List.append_assoc .., by rwa [Level.push_before], ?_⟩
  cases chained with
  | nothing => exact .expression (.one derived)
  | expression chain => exact .expression (.more chain derived)

private theorem LevelReads.content {part : List Char} {level : Level} {inner : Regex}
    (read : LevelReads part level) (value : level.value? = some inner) :
    Derives .content part inner := by
  obtain ⟨front, back, rfl, before, chained⟩ := read
  obtain ⟨before?, chain?⟩ := level
  cases before with
  | nothing =>
    cases chained with
    | nothing => simp [Level.value?] at value
    | expression chain =>
      obtain rfl := Option.some.inj value
      exact .single chain
  | bar first =>
    cases chained with
    | nothing => simp [Level.value?] at value
    | expression second =>
      obtain rfl := Option.some.inj value
      simpa using Derives.both first second

private theorem LevelReads.expression {part : List Char} {level : Level} {regex : Regex}
    (read : LevelReads part level) (topmost : level.before = none)
    (value : level.value? = some regex) : Derives .expression part regex := by
  obtain ⟨front, back, rfl, before, chained⟩ := read
  obtain ⟨before?, chain?⟩ := level
  obtain rfl : before? = none := topmost
  cases before with
  | nothing =>
    cases chained with
    | nothing => simp [Level.value?] at value
    | expression chain =>
      obtain rfl := Option.some.inj value
      exact chain

private theorem GroupReads.term {last suffix : List Char} {group : Regex} {wrap : Regex → Regex}
    (read : GroupReads last (some group)) (suffixed : Suffix suffix wrap) :
    Derives .term (last ++ suffix) (wrap group) := by
  cases read with
  | closed content => simpa using Derives.group content suffixed

namespace Reader

theorem holds_initial : Holds [] initial :=
  ⟨⟨[], [], [], rfl, .outside, ⟨[], [], rfl, .nothing, .nothing⟩, .nothing⟩, fun _ => rfl,
    Nat.zero_le _⟩

private theorem Holds.suffix {text suffix : List Char} {reader : Reader} {group : Regex}
    {wrap : Regex → Regex} (holds : Holds text reader) (closed : reader.group = some group)
    (suffixed : Suffix suffix wrap) :
    Holds (text ++ suffix) ⟨reader.enclosing, reader.current.push (wrap group), none⟩ := by
  obtain ⟨outer, part, last, rfl, around, level, ended⟩ := holds.split
  rw [closed] at ended
  refine ⟨⟨outer, part ++ (last ++ suffix), [], by simp, around, level.push ?_, .nothing⟩,
    fun top => ?_, holds.shallow⟩
  · exact ended.term suffixed
  · rw [Level.push_before]
    exact holds.topmost top

theorem Holds.settle {text : List Char} {reader : Reader} (holds : Holds text reader) :
    Holds text reader.settle := by
  cases closed : reader.group with
  | none => rwa [settle_eq_self closed]
  | some group =>
    have settled : reader.settle = ⟨reader.enclosing, reader.current.push group, none⟩ := by
      simp [Reader.settle, closed]
    rw [settled]
    simpa using holds.suffix closed .none

private theorem Holds.read {text : List Char} {reader next : Reader} {c : Char}
    (holds : Holds text reader) (settled : reader.group = none) (done : reader.read c = .ok next) :
    Holds (text ++ [c]) next := by
  obtain ⟨outer, part, last, rfl, around, level, ended⟩ := holds.split
  rw [settled] at ended
  cases ended
  rcases read_cases done with ⟨⟨low, high⟩, rfl⟩ | ⟨rfl, shallow, rfl⟩ |
    ⟨rfl, outermost, outers, inner, enclosing, value, rfl⟩ | ⟨rfl, first, inside, current, rfl⟩
  · refine ⟨⟨outer, part ++ [c], [], by simp, around, level.push (.letter low high), ?_⟩,
      fun top => ?_, holds.shallow⟩
    · simpa [settled] using GroupReads.nothing
    · rw [Level.push_before]
      exact holds.topmost top
  · refine ⟨⟨outer ++ part ++ ['('], [], [], by simp, .inside around level holds.topmost,
      ⟨[], [], rfl, .nothing, .nothing⟩, .nothing⟩, by simp, shallow⟩
  · have bound := holds.shallow
    rw [enclosing] at around bound
    cases around with
    | @inside before beforePart _ _ outerAround outerLevel topmost =>
      refine ⟨⟨before, beforePart, '(' :: part ++ [')'], by simp, outerAround, outerLevel,
        .closed (level.content value)⟩, topmost, ?_⟩
      simp only [List.length_cons] at bound
      exact Nat.le_of_succ_le bound
  · obtain ⟨front, back, rfl, before, chained⟩ := level
    rw [current] at before chained
    cases before
    cases chained with
    | expression derived =>
      refine ⟨⟨outer, back ++ ['|'], [], by simp, around,
        ⟨back ++ ['|'], [], by simp, .bar derived, .nothing⟩, ?_⟩, fun top => absurd top inside,
        holds.shallow⟩
      simpa [settled] using GroupReads.nothing

theorem Holds.step {text : List Char} {reader next : Reader} {c : Char} (holds : Holds text reader)
    (stepped : reader.step c = .ok next) : Holds (text ++ [c]) next := by
  unfold Reader.step at stepped
  split at stepped
  · next group wrap closed suffixed =>
    obtain rfl := Except.ok.inj stepped
    exact holds.suffix closed ((suffix?_eq_some_iff c wrap).mp suffixed)
  · exact holds.settle.read reader.settle_group stepped

/-- The reader stays in step with the text over any number of characters. -/
theorem Holds.after {text rest : List Char} {reader last : Reader} (holds : Holds text reader)
    (read : reader.after rest = .ok last) : Holds (text ++ rest) last := by
  induction rest generalizing text reader with
  | nil =>
    obtain rfl := Except.ok.inj read
    simpa using holds
  | cons c rest ih =>
    obtain ⟨next, stepped, later⟩ := (after_cons_iff ..).mp read
    simpa using ih (holds.step stepped) later

end Reader

/-! ### What is read has a derivation -/

private theorem ChainReads.nested {text : List Char} {chain? : Option Regex}
    (read : ChainReads text chain?) : Nested text := by
  cases read with
  | nothing => exact nested_plain (by simp) (by simp)
  | expression derived => exact derived.nested

private theorem BeforeReads.nested {text : List Char} {before? : Option Regex}
    (read : BeforeReads text before?) : Nested text := by
  cases read with
  | nothing => exact nested_plain (by simp) (by simp)
  | bar derived => exact derived.nested.append (nested_plain (by decide) (by decide))

private theorem LevelReads.nested {text : List Char} {level : Level}
    (read : LevelReads text level) : Nested text := by
  obtain ⟨front, back, rfl, before, chained⟩ := read
  exact before.nested.append chained.nested

private theorem GroupReads.nested {text : List Char} {group? : Option Regex}
    (read : GroupReads text group?) : Nested text := by
  cases read with
  | nothing => exact nested_plain (by simp) (by simp)
  | closed content => exact content.nested.group

private theorem Encloses.count {text : List Char} {levels : List Level}
    (around : Encloses text levels) : text.count '(' = text.count ')' + levels.length := by
  induction around with
  | outside => rfl
  | inside around read topmost ih =>
    have := read.nested.balanced
    simp only [List.count_append, List.count_singleton_self, List.length_cons,
      List.count_singleton, Char.reduceEq, beq_iff_eq, if_false]
    omega

theorem Reader.Holds.count {text : List Char} {reader : Reader} (holds : reader.Holds text) :
    text.count '(' = text.count ')' + reader.enclosing.length := by
  obtain ⟨outer, part, last, rfl, around, level, ended⟩ := holds.split
  have := around.count
  have := level.nested.balanced
  have := ended.nested.balanced
  simp only [List.count_append]
  omega

theorem Reader.Holds.openGroups_eq {text : List Char} {reader : Reader}
    (holds : reader.Holds text) : openGroups text = reader.enclosing.length := by
  have := holds.count
  rw [openGroups]
  omega

private theorem Reader.Holds.finish {text : List Char} {reader : Reader} {regex : Regex}
    (holds : reader.Holds text) (done : reader.finish = .ok regex) :
    Derives .expression text regex := by
  obtain ⟨outer, part, last, rfl, around, level, ended⟩ := holds.settle.split
  rw [Reader.settle_group] at ended
  cases ended
  simp only [Reader.finish] at done
  split at done
  · next found enclosing value =>
    obtain rfl := Except.ok.inj done
    rw [enclosing] at around
    cases around
    simpa using level.expression (holds.settle.topmost enclosing) value
  · contradiction

/-- Every text that is read is of the grammar, with the tree read for its derivation. -/
theorem reads_of_parse {text : List Char} {regex : Regex} (parsed : parse text = .ok regex) :
    Reads text regex := by
  obtain ⟨last, read, finished⟩ := (Reader.run_eq_ok_iff ..).mp parsed
  refine ⟨by simpa using (Reader.holds_initial.after read).finish finished, ?_⟩
  rintro front ⟨rest, rfl⟩
  obtain ⟨middle, frontRead, _⟩ := (Reader.after_append_iff ..).mp read
  have holds : middle.Holds front := by simpa using Reader.holds_initial.after frontRead
  rw [holds.openGroups_eq]
  exact holds.shallow

/-- The reader accepts exactly the derived texts with at most 256 groups open at any place, and
    gives the tree of the derivation, of which there is only one. A derived text is refused only
    where it opens one group more. -/
theorem parse_accepts_grammar (text : List Char) (regex : Regex) :
    (parse text = .ok regex ↔
      Derives .expression text regex ∧ ∀ front, front <+: text → openGroups front ≤ 256) ∧
    (∀ other, Reads text regex → Reads text other → other = regex) ∧
    (Derives .expression text regex →
      ((∃ error, parse text = .error error) ↔
        ∃ front, front <+: text ∧ 256 < openGroups front)) := by
  refine ⟨⟨reads_of_parse, Reads.parse_eq⟩, fun other one two => ?_, fun derived => ?_⟩
  · exact Except.ok.inj (two.parse_eq.symm.trans one.parse_eq)
  · constructor
    · rintro ⟨error, refused⟩
      by_contra none
      have shallow : Shallow text := fun front inside =>
        Nat.le_of_not_lt fun deep => none ⟨front, inside, deep⟩
      exact absurd (refused.symm.trans (Reads.parse_eq ⟨derived, shallow⟩)) (by simp)
    · rintro ⟨front, inside, deep⟩
      cases parsed : parse text with
      | error error => exact ⟨error, rfl⟩
      | ok found => exact absurd ((reads_of_parse parsed).2 front inside) (Nat.not_le_of_lt deep)

end CommonWord.Regex
