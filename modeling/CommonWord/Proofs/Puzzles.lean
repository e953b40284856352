import CommonWord.Proofs.Meanings
import CommonWord.Proofs.Products
import CommonWord.Puzzle

/-!
A puzzle is solved by the shortlex-least word that belongs to the language of every line.

The lines of a text are read in turn up to the first that is no expression. Every line that is read
is given an automaton of the words that it stands for, and the search goes over these automata.
-/

namespace CommonWord

/-! ### Lines -/

theorem Entry.compile_eq_ok_iff {text : List Char} {entry : Entry} :
    Entry.compile text = .ok entry ↔ ∃ regex, Regex.parse text = .ok regex ∧
      entry = ⟨text, regex, Nfa.ofRegex regex, Dfa.ofNfa (Nfa.ofRegex regex)⟩ := by
  unfold compile
  cases Regex.parse text with
  | error error => simp
  | ok regex => simp [eq_comm]

theorem Entry.compile_eq_error_iff {text : List Char} {cause : Regex.SyntaxError} :
    Entry.compile text = .error cause ↔ Regex.parse text = .error cause := by
  unfold compile
  cases Regex.parse text with
  | error error => simp
  | ok regex => simp

namespace Puzzle

/-- The lines of a text that are not blank, trimmed. -/
def texts (source : List Char) : List (List Char) :=
  ((Text.lines source).map Text.trim).filter fun text => !text.isEmpty

private theorem numberedLines_map_snd (source : List Char) :
    (numberedLines source).map (·.2) = texts source := by
  unfold numberedLines texts
  generalize Text.lines source = lines
  generalize 1 = number
  induction lines generalizing number with
  | nil => rfl
  | cons line rest ih =>
    by_cases blank : Text.trim line = []
    · simpa [List.zipIdx_cons, List.filterMap_cons, blank] using ih (number + 1)
    · simpa [List.zipIdx_cons, List.filterMap_cons, blank] using ih (number + 1)

/-- An entry is that of a line, under the number of the line. -/
def Compiled (line : Nat × List Char) (entry : Nat × Entry) : Prop :=
  line.1 = entry.1 ∧ Entry.compile line.2 = .ok entry.2

/-- All that can come of lines: either every one is compiled, or those before the first that is
    rejected. -/
private theorem compileLines_cases (lines : List (Nat × List Char)) :
    ((compileLines lines).rejected = none ∧
      List.Forall₂ Compiled lines (compileLines lines).compiled) ∨
    ∃ before number text after cause, lines = before ++ (number, text) :: after ∧
      List.Forall₂ Compiled before (compileLines lines).compiled ∧
      Entry.compile text = .error cause ∧
      (compileLines lines).rejected = some ⟨number, cause⟩ := by
  induction lines with
  | nil => exact .inl ⟨rfl, .nil⟩
  | cons line rest ih =>
    obtain ⟨number, text⟩ := line
    cases compiled : Entry.compile text with
    | error cause =>
      refine .inr ⟨[], number, text, rest, cause, rfl, ?_, compiled, ?_⟩
      · simp [compileLines, compiled]
      · simp [compileLines, compiled]
    | ok entry =>
      have first : Compiled (number, text) (number, entry) := ⟨rfl, compiled⟩
      rcases ih with ⟨none, all⟩ | ⟨before, bad, other, after, cause, rfl, some, refused, rejected⟩
      · refine .inl ⟨?_, ?_⟩
        · simp [compileLines, compiled, none]
        · simpa [compileLines, compiled] using ⟨first, all⟩
      · refine .inr ⟨(number, text) :: before, bad, other, after, cause, rfl, ?_, refused, ?_⟩
        · simpa [compileLines, compiled] using ⟨first, some⟩
        · simp [compileLines, compiled, rejected]

private theorem exists_of_forall₂ {Left Right : Type} {related : Left → Right → Prop}
    {lefts : List Left} {rights : List Right} (all : List.Forall₂ related lefts rights)
    {left : Left} (member : left ∈ lefts) : ∃ right, related left right := by
  have both := all.imp fun _ right held => (⟨⟨right, held⟩, held⟩ : (∃ right, related _ right) ∧ _)
  exact ((List.forall₂_and_left lefts rights).mp both).1 left member

/-- All that can come of a text: it is a puzzle when all of its lines are compiled, and otherwise it
    is refused at the first line that is not. -/
theorem load_cases (source : List Char) :
    (∃ entries, load source = .ok (ofEntries entries) ∧
      List.Forall₂ (fun text entry => Entry.compile text = .ok entry) (texts source) entries) ∨
    ∃ before number text after cause, numberedLines source = before ++ (number, text) :: after ∧
      (∀ line, line ∈ before → ∃ entry, Entry.compile line.2 = .ok entry) ∧
      Entry.compile text = .error cause ∧ load source = .error ⟨number, cause⟩ := by
  rw [← numberedLines_map_snd]
  rcases compileLines_cases (numberedLines source) with
    ⟨none, all⟩ | ⟨before, number, text, after, cause, lines, some, refused, rejected⟩
  · refine .inl ⟨(read source).compiled.map (·.2), ?_, ?_⟩
    · simp [load, read, none]
    · rw [List.forall₂_map_left_iff, List.forall₂_map_right_iff]
      exact all.imp fun line entry compiled => compiled.2
  · refine .inr ⟨before, number, text, after, cause, lines, ?_, refused, ?_⟩
    · intro line member
      obtain ⟨entry, -, compiled⟩ := exists_of_forall₂ some member
      exact ⟨entry.2, compiled⟩
    · simp [load, read, rejected]

private theorem mem_texts {source text : List Char} {before after : List (Nat × List Char)}
    {number : Nat}
    (lines : numberedLines source = before ++ (number, text) :: after) : text ∈ texts source := by
  rw [← numberedLines_map_snd, lines]
  simp

/-! ### Languages -/

/-- An automaton accepts exactly the words of a language. -/
def Recognizes (dfa : Dfa) (words : Language Char) : Prop :=
  dfa.WellFormed ∧ ∀ word, dfa.accepts word = true ↔ word ∈ words

theorem recognizes_ofRegex (regex : Regex) :
    Recognizes (Dfa.ofNfa (Nfa.ofRegex regex)) regex.language :=
  ⟨Dfa.wellFormed_ofNfa (Nfa.wellFormed_ofRegex regex), Dfa.accepts_iff_mem_language regex⟩

private theorem recognizes_of_standsFor {text : List Char} {words : Language Char} {entry : Entry}
    (stands : Regex.StandsFor text words) (compiled : Entry.compile text = .ok entry) :
    Recognizes entry.dfa words := by
  obtain ⟨regex, parsed, rfl⟩ := Entry.compile_eq_ok_iff.mp compiled
  obtain ⟨other, also, rfl⟩ := Regex.standsFor_iff.mp stands
  obtain rfl := Except.ok.inj (parsed.symm.trans also)
  exact recognizes_ofRegex regex

private theorem recognizes_dfas {texts : List (List Char)} {languages : List (Language Char)}
    {entries : List Entry} (stand : List.Forall₂ Regex.StandsFor texts languages)
    (compiled : List.Forall₂ (fun text entry => Entry.compile text = .ok entry) texts entries) :
    List.Forall₂ Recognizes (ofEntries entries).dfas languages := by
  rw [ofEntries, List.forall₂_map_left_iff]
  induction stand generalizing entries with
  | nil =>
    cases compiled
    exact .nil
  | cons stands _ ih =>
    cases compiled with
    | cons first rest => exact .cons (recognizes_of_standsFor stands first) (ih rest)

private theorem wellFormed_of_recognizes {dfas : List Dfa} {languages : List (Language Char)}
    (recognize : List.Forall₂ Recognizes dfas languages) :
    ∀ dfa, dfa ∈ dfas → dfa.WellFormed := by
  induction recognize with
  | nil => simp
  | cons first _ ih => exact List.forall_mem_cons.mpr ⟨first.1, ih⟩

private theorem common_iff_of_recognizes {dfas : List Dfa} {languages : List (Language Char)}
    (recognize : List.Forall₂ Recognizes dfas languages) (word : List Char) :
    Dfa.Common dfas word ↔ ∀ words, words ∈ languages → word ∈ words := by
  induction recognize with
  | nil => simp [Dfa.Common]
  | cons first _ ih =>
    rw [List.forall_mem_cons, ← ih, ← first.2 word]
    exact List.forall_mem_cons

/-! ### Solutions -/

/-- Where every line stands for some words, the puzzle of a text can be loaded, and its automata
    recognize these words. -/
theorem load_of_standsFor {source : List Char} {languages : List (Language Char)}
    (stand : List.Forall₂ Regex.StandsFor (texts source) languages) :
    ∃ puzzle, load source = .ok puzzle ∧ List.Forall₂ Recognizes puzzle.dfas languages := by
  rcases load_cases source with
    ⟨entries, loaded, compiled⟩ | ⟨before, number, text, after, cause, lines, -, refused, -⟩
  · exact ⟨ofEntries entries, loaded, recognizes_dfas stand compiled⟩
  · obtain ⟨words, stands⟩ := exists_of_forall₂ stand (mem_texts lines)
    obtain ⟨regex, parsed, -⟩ := Regex.standsFor_iff.mp stands
    rw [Entry.compile_eq_error_iff.mp refused] at parsed
    contradiction

theorem load_eq_error_iff (source : List Char) :
    (∃ error, load source = .error error) ↔
      ∃ text, text ∈ texts source ∧ ∀ words, ¬ Regex.StandsFor text words := by
  constructor
  · rintro ⟨error, refused⟩
    rcases load_cases source with
      ⟨entries, loaded, -⟩ | ⟨before, number, text, after, cause, lines, -, rejected, -⟩
    · rw [refused] at loaded
      contradiction
    · refine ⟨text, mem_texts lines, ?_⟩
      intro words stands
      obtain ⟨regex, parsed, -⟩ := Regex.standsFor_iff.mp stands
      rw [Entry.compile_eq_error_iff.mp rejected] at parsed
      contradiction
  · rintro ⟨text, member, none⟩
    rcases load_cases source with
      ⟨entries, -, compiled⟩ | ⟨before, number, other, after, cause, -, -, -, refused⟩
    · obtain ⟨entry, first⟩ := exists_of_forall₂ compiled member
      obtain ⟨regex, parsed, -⟩ := Entry.compile_eq_ok_iff.mp first
      exact absurd (Regex.standsFor_iff.mpr ⟨regex, parsed, rfl⟩) (none regex.language)
    · exact ⟨⟨number, cause⟩, refused⟩

theorem solve_eq_error_iff {source : List Char} {error : PuzzleError} :
    solve source = .error error ↔ load source = .error error := by
  unfold solve
  cases load source with
  | error other => simp
  | ok puzzle => simp

/-- The solution of a puzzle whose automata recognize some languages. -/
theorem solution_spec {puzzle : Puzzle} {languages : List (Language Char)}
    (recognize : List.Forall₂ Recognizes puzzle.dfas languages) :
    (∀ word, puzzle.solution = some word ↔
      Word.IsLeast (fun other => ∀ words, words ∈ languages → other ∈ words) word) ∧
    (puzzle.solution = none ↔
      ¬ ∃ word : List Char, ∀ words, words ∈ languages → word ∈ words) := by
  have wellFormed := wellFormed_of_recognizes recognize
  have common : Dfa.Common puzzle.dfas =
      fun other => ∀ words, words ∈ languages → other ∈ words := by
    funext other
    exact propext (common_iff_of_recognizes recognize other)
  constructor
  · intro word
    rw [← common]
    exact Dfa.commonWord_eq_some_iff wellFormed word
  · have nothing := Dfa.commonWord_eq_none_iff wellFormed
    rw [common] at nothing
    exact nothing.trans not_exists.symm

/-- Where every line stands for some words, a text is solved by the least word common to all lines,
    if there is any. A text without an expression is solved by the empty word, and one is no puzzle
    exactly when a line stands for no words. -/
theorem solve_eq_least_common_word (source : List Char) :
    (∀ languages, List.Forall₂ Regex.StandsFor (texts source) languages →
      (∀ word, solve source = .ok (some word) ↔
        Word.IsLeast (fun other => ∀ words, words ∈ languages → other ∈ words) word) ∧
      (solve source = .ok none ↔
        ¬ ∃ word : List Char, ∀ words, words ∈ languages → word ∈ words)) ∧
    (texts source = [] → solve source = .ok (some [])) ∧
    ((∃ error, solve source = .error error) ↔
      ∃ text, text ∈ texts source ∧ ∀ words, ¬ Regex.StandsFor text words) := by
  refine ⟨?_, ?_, ?_⟩
  · intro languages stand
    obtain ⟨puzzle, loaded, recognize⟩ := load_of_standsFor stand
    obtain ⟨least, nothing⟩ := solution_spec recognize
    simp only [solve, loaded, Except.ok.injEq]
    exact ⟨least, nothing⟩
  · intro blank
    have stand : List.Forall₂ Regex.StandsFor (texts source) [] := by
      rw [blank]
      exact .nil
    obtain ⟨puzzle, loaded, recognize⟩ := load_of_standsFor stand
    rw [solve, loaded]
    apply congrArg Except.ok
    apply ((solution_spec recognize).1 []).mpr
    refine ⟨by simp, ?_⟩
    intro other _ distinct
    exact List.Shortlex.of_length_lt (List.length_pos_of_ne_nil distinct)
  · rw [← load_eq_error_iff]
    exact exists_congr fun error => solve_eq_error_iff

example : solve "(a|b)+b\n\n a(b)* \n".toList = .ok (some ['a', 'b']) := by decide +kernel

end Puzzle

end CommonWord
