import CommonWord.Proofs.EmptyWord
import CommonWord.Proofs.Sessions
import CommonWord.Transcript

/-!
The transcript of a run tells what the finished automata are.

A run that leaves records does what the run without them does. While an exploration goes on, what
was told of its keys is what it has found, so at its end the states of the automaton were told of
one after the other. What is written in the end is spelled out from the written forms of the
expressions and the numbers of the finished automata.
-/

namespace CommonWord

/-! ### Computations that leave records -/

/-- From every state of the transcript, a computation gives this value and adds these records. -/
def Leaves {α : Type} (computation : Recording α) (value : α) (records : List Record) : Prop :=
  ∀ before, computation before = (value, before ++ records.toArray)

section

variable {α β : Type} {computation : Recording α} {next : α → Recording β} {value : α} {result : β}
  {records more : List Record}

private theorem leaves_pure (value : α) : Leaves (pure value) value [] := by
  intro before
  rw [Array.append_empty]
  rfl

private theorem leaves_note (record : Record) : Leaves (Recording.note record) () [record] := by
  intro before
  simp [Recording.note, modify, modifyGet, MonadStateOf.modifyGet, StateT.modifyGet, pure]

private theorem Leaves.bind (first : Leaves computation value records)
    (rest : Leaves (next value) result more) :
    Leaves (computation >>= next) result (records ++ more) := by
  intro before
  have run : (computation >>= next) before = next value (before ++ records.toArray) := by
    show StateT.bind computation next before = _
    rw [StateT.bind, first before]
    rfl
  rw [run, rest]
  simp

private theorem Leaves.bind_silent (first : Leaves computation value records)
    (rest : Leaves (next value) result []) : Leaves (computation >>= next) result records := by
  simpa using first.bind rest

end

/-! ### Explorations -/

namespace Recording

/-- What is told of keys in the order in which they are found. -/
def statesMet (found : Array Discovery) : List Record :=
  found.toList.zipIdx.map fun (discovery, number) => .stateMet number discovery.key

/-- A computation carries an exploration on and tells of the keys that it finds. -/
def Tells {α : Type} (before after : Exploration) (computation : Recording α) (value : α) : Prop :=
  ∃ records, Leaves computation value records ∧
    statesMet after.found = statesMet before.found ++ records

private theorem statesMet_push (found : Array Discovery) (discovery : Discovery) :
    statesMet (found.push discovery) =
      statesMet found ++ [.stateMet found.size discovery.key] := by
  simp [statesMet, List.zipIdx_append]

private theorem tells_pure {α : Type} (exploration : Exploration) (value : α) :
    Tells exploration exploration (pure value) value :=
  ⟨[], leaves_pure value, by simp⟩

private theorem Tells.bind {α β : Type} {before middle after : Exploration}
    {computation : Recording α} {next : α → Recording β} {value : α} {result : β}
    (first : Tells before middle computation value)
    (rest : Tells middle after (next value) result) :
    Tells before after (computation >>= next) result := by
  obtain ⟨records, leaves, met⟩ := first
  obtain ⟨more, further, also⟩ := rest
  exact ⟨records ++ more, leaves.bind further, by rw [also, met, List.append_assoc]⟩

private theorem tells_visit (exploration : Exploration) (key : Key) (trail : List Char) :
    Tells exploration (exploration.visit key trail).2 (visit exploration key trail)
      (exploration.visit key trail) := by
  unfold visit
  cases met : exploration.index[key]? with
  | some number =>
    have same : exploration.visit key trail = (number, exploration) := by
      simp [Exploration.visit, met]
    rw [same]
    exact tells_pure exploration _
  | none =>
    have new : exploration.visit key trail = (exploration.found.size,
        ⟨exploration.found.push ⟨key, trail⟩, exploration.index.insert key exploration.found.size,
          exploration.edges⟩) := by
      simp [Exploration.visit, met]
    refine ⟨_, (leaves_note _).bind (leaves_pure _), ?_⟩
    rw [new]
    exact statesMet_push ..

private theorem tells_visitAll (trail : List Char) (edges : List (Char × Key))
    (exploration : Exploration) :
    Tells exploration (Exploration.visitAll trail edges exploration).2
      (visitAll trail edges exploration) (Exploration.visitAll trail edges exploration) := by
  induction edges generalizing exploration with
  | nil => exact tells_pure exploration _
  | cons edge rest ih =>
    obtain ⟨label, key⟩ := edge
    exact (tells_visit exploration key (label :: trail)).bind ((ih _).bind (tells_pure _ _))

private theorem tells_expand (graph : Graph) (discovery : Discovery) (exploration : Exploration) :
    Tells exploration (exploration.expand graph discovery) (expand graph discovery exploration)
      (exploration.expand graph discovery) := by
  have visited := tells_visitAll discovery.trail (graph.next discovery.key) exploration
  exact visited.bind (tells_pure (exploration.expand graph discovery) _)

private theorem tells_expandAll (graph : Graph) (bound : Nat) (exploration : Exploration) :
    Tells exploration (Exploration.run graph (fun _ => false) bound exploration)
      (expandAll graph bound exploration)
      (Exploration.run graph (fun _ => false) bound exploration) := by
  induction bound generalizing exploration with
  | zero => exact tells_pure exploration _
  | succ bound ih =>
    rw [expandAll, Exploration.run]
    cases exploration.pending? with
    | none => exact tells_pure exploration _
    | some discovery => exact (tells_expand graph discovery exploration).bind (ih _)

end Recording

/-! ### What is told of a line -/

namespace Record

/-- What is told of the automata of an expression, with all the states of the second one. -/
def ofRegex (regex : Regex) : List Record :=
  let nfa := Nfa.ofRegex regex
  let dfa := Dfa.ofNfa nfa
  [nfaBuilt regex nfa.size ((List.range nfa.size).filter nfa.accepting).length] ++
    (dfa.states.toList.zipIdx.map fun (state, number) => stateMet number state.members) ++
    [dfaBuilt nfa.size dfa.size]

/-- What is told of a line that stands for an expression. -/
def ofLine (line : Nat) (regex : Regex) : Record :=
  let nfa := Nfa.ofRegex regex
  let dfa := Dfa.ofNfa nfa
  lineCompiled line regex nfa.size dfa.size (dfa.accepting dfa.start)

/-- What is told of a line with its automata. -/
def ofRow (line : Nat) (regex : Regex) : List Record := ofRegex regex ++ [ofLine line regex]

end Record

/-- What is told of rows, of which the first has this number, up to one that is no expression. -/
def told {α : Type} (tell : Nat → Regex → List α) (number : Nat) : List (List Char) → List α
  | [] => []
  | row :: rest =>
    if row.isEmpty then told tell (number + 1) rest
    else
      match Regex.parse row with
      | .error _ => []
      | .ok regex => tell number regex ++ told tell (number + 1) rest

private theorem map_told {α β : Type} (tell : Nat → Regex → List α) (view : α → β) (number : Nat)
    (rows : List (List Char)) :
    (told tell number rows).map view =
      told (fun number regex => (tell number regex).map view) number rows := by
  induction rows generalizing number with
  | nil => rfl
  | cons row rest ih =>
    by_cases empty : row = []
    · simp [told, empty, ih]
    · cases parsed : Regex.parse row with
      | error error => simp [told, empty, parsed]
      | ok regex => simp [told, empty, parsed, ih]

namespace Recording

private theorem statesMet_explore {nfa : Nfa} (wellFormed : nfa.WellFormed) :
    statesMet nfa.explore.found =
      (Dfa.ofNfa nfa).states.toList.zipIdx.map fun (state, number) =>
        .stateMet number state.members := by
  have keys := congrArg
    (fun keys => keys.zipIdx.map fun (key, number) => Record.stateMet number key)
    (Dfa.members_ofNfa wellFormed)
  simpa [statesMet, List.zipIdx_map, Function.comp_def] using keys.symm

theorem leaves_buildNfa (regex : Regex) :
    Leaves (buildNfa regex) (Nfa.ofRegex regex)
      [.nfaBuilt regex (Nfa.ofRegex regex).size
        ((List.range (Nfa.ofRegex regex).size).filter (Nfa.ofRegex regex).accepting).length] := by
  rw [← Nfa.length_accepts]
  exact (leaves_note _).bind_silent (leaves_pure _)

private theorem leaves_buildDfa {nfa : Nfa} (wellFormed : nfa.WellFormed) :
    Leaves (buildDfa nfa) (Dfa.ofNfa nfa)
      (((Dfa.ofNfa nfa).states.toList.zipIdx.map fun (state, number) =>
        .stateMet number state.members) ++ [.dfaBuilt nfa.size (Dfa.ofNfa nfa).size]) := by
  obtain ⟨first, entered, met⟩ := tells_visit .empty nfa.subsets.start []
  obtain ⟨records, leaves, also⟩ :=
    tells_expandAll nfa.subsets (Nat.pow 2 nfa.size) (.initial nfa.subsets)
  have whole : statesMet nfa.explore.found = first ++ records := also.trans (met ▸ rfl)
  rw [Dfa.size_ofNfa wellFormed, ← statesMet_explore wellFormed, whole, List.append_assoc]
  exact entered.bind (leaves.bind ((leaves_note _).bind_silent (leaves_pure _)))

private theorem leaves_compile_error {text : List Char} {error : Regex.SyntaxError}
    (refused : Regex.parse text = .error error) : Leaves (compile text) (.error error) [] := by
  rw [compile, refused]
  exact leaves_pure _

private theorem leaves_compile_ok {text : List Char} {regex : Regex}
    (parsed : Regex.parse text = .ok regex) :
    Leaves (compile text)
      (.ok ⟨text, regex, Nfa.ofRegex regex, Dfa.ofNfa (Nfa.ofRegex regex)⟩)
      (Record.ofRegex regex) := by
  rw [compile, parsed, Record.ofRegex, List.append_assoc]
  have built := leaves_buildDfa (Nfa.wellFormed_ofRegex regex)
  exact (leaves_buildNfa regex).bind (built.bind_silent (leaves_pure _))

/-- The rows that are not empty, each with its number. -/
def numbered (number : Nat) (rows : List (List Char)) : List (Nat × List Char) :=
  (rows.zipIdx number).filterMap fun (row, number) =>
    if row.isEmpty then none else some (number, row)

private theorem leaves_compileLines (rows : List (List Char)) (number : Nat) :
    Leaves (compileLines (numbered number rows)) (Puzzle.compileLines (numbered number rows))
      (told Record.ofRow number rows) := by
  induction rows generalizing number with
  | nil => exact leaves_pure _
  | cons row rest ih =>
    by_cases empty : row = []
    · have skipped : numbered number (row :: rest) = numbered (number + 1) rest := by
        simp [numbered, empty]
      rw [skipped, told, if_pos (by simp [empty])]
      exact ih (number + 1)
    · have kept : numbered number (row :: rest) = (number, row) :: numbered (number + 1) rest := by
        simp [numbered, empty]
      rw [kept, compileLines, Puzzle.compileLines, Entry.compile, told, if_neg (by simp [empty])]
      cases parsed : Regex.parse row with
      | error error => exact (leaves_compile_error parsed).bind (leaves_pure _)
      | ok regex =>
        have line : Leaves (note (.lineCompiled number regex (Nfa.ofRegex regex).size
            (Dfa.ofNfa (Nfa.ofRegex regex)).size regex.nullable)) ()
            [Record.ofLine number regex] := by
          rw [Record.ofLine, Dfa.accepting_start_ofRegex]
          exact leaves_note _
        have later := ih (number + 1)
        simp only [Record.ofRow, List.append_assoc]
        exact (leaves_compile_ok parsed).bind (line.bind (later.bind_silent (leaves_pure _)))

private theorem leaves_search (dfas : List Dfa) :
    Leaves (search dfas) (Dfa.commonWord dfas) [.ofSearch (Dfa.search dfas)] :=
  (leaves_note _).bind_silent (leaves_pure _)

def ending : Except PuzzleError Puzzle → List Record
  | .error _ => []
  | .ok puzzle => [.ofSearch (Dfa.search puzzle.dfas)]

private theorem leaves_solve (source : List Char) :
    Leaves (solve source) (Puzzle.solve source)
      (told Record.ofRow 1 (Text.rows source) ++ ending (Puzzle.load source)) := by
  have lines := leaves_compileLines (Text.rows source) 1
  have same : numbered 1 (Text.rows source) = Puzzle.numberedLines source :=
    (Puzzle.numberedLines_eq source).symm
  rw [same] at lines
  cases reading : Puzzle.compileLines (Puzzle.numberedLines source) with
  | mk compiled rejected =>
  rw [reading] at lines
  cases rejected with
  | some error =>
    have refused : Puzzle.load source = .error error := by simp [Puzzle.load, Puzzle.read, reading]
    rw [Puzzle.solve_eq_error_iff.mpr refused, refused]
    exact lines.bind (leaves_pure _)
  | none =>
    have loaded : Puzzle.load source = .ok (Puzzle.ofEntries (compiled.map (·.2))) := by
      simp [Puzzle.load, Puzzle.read, reading]
    have dfas : (Puzzle.ofEntries (compiled.map (·.2))).dfas = compiled.map (·.2.dfa) := by
      simp [Puzzle.ofEntries]
    have solved : Puzzle.solve source = .ok (Dfa.commonWord (compiled.map (·.2.dfa))) := by
      rw [Puzzle.solve, loaded, ← dfas]
      rfl
    rw [solved, loaded, ending, dfas]
    have searched := leaves_search (compiled.map (·.2.dfa))
    exact lines.bind (searched.bind_silent (leaves_pure (Except.ok (Dfa.commonWord _))))

end Recording

/-! ### What is written -/

namespace Log

/-- Numbers with a comma and a space between each two. -/
def listed : List Nat → String
  | [] => ""
  | [last] => toString last
  | number :: next :: rest => toString number ++ ", " ++ listed (next :: rest)

/-- A list of numbers between brackets. -/
def bracketed (numbers : List Nat) : String := "[" ++ listed numbers ++ "]"

/-- What is written of a line and its automata. -/
def ofRow (line : Nat) (regex : Regex) : List String :=
  let nfa := Nfa.ofRegex regex
  let dfa := Dfa.ofNfa nfa
  let printed := String.ofList regex.written
  let accepting := ((List.range nfa.size).filter nfa.accepting).length
  [s!"DEBUG regex_puzzle::nfa: nfa for {printed}: {nfa.size} states, {accepting} accepting"] ++
    (dfa.states.toList.zipIdx.map fun (state, number) =>
      s!"TRACE regex_puzzle::dfa: dfa state {number} = {bracketed state.members}") ++
    ["DEBUG regex_puzzle::dfa: subset construction: " ++
        s!"{nfa.size} nfa states -> {dfa.size} dfa states",
      s!"INFO regex_puzzle::puzzle: line {line}: {printed} -> " ++
        s!"{nfa.size} nfa / {dfa.size} dfa states" ++
        if dfa.accepting dfa.start then ", nullable" else ""]

/-- What is written of a search that met so many tuples and gave this answer. -/
def ofAnswer (met : Nat) : Option (List Char) → String
  | some word =>
    s!"DEBUG regex_puzzle::matcher: common string of length {word.length}" ++
      s!" after {met} product states"
  | none => s!"DEBUG regex_puzzle::matcher: no common string, {met} product states exhausted"

end Log

/-- The tuples of states that the search for a common word meets, in order. -/
def Dfa.tuplesMet (dfas : List Dfa) : List Key := (exploreProduct dfas).found.toList.map (·.key)

private theorem Dfa.tuplesMet_nodup {dfas : List Dfa}
    (wellFormed : ∀ dfa, dfa ∈ dfas → dfa.WellFormed) : (tuplesMet dfas).Nodup :=
  (exploreProduct_spec wellFormed).1.keys_nodup

namespace Record

private theorem numberList_eq (numbers : List Nat) :
    numberList numbers = Log.bracketed numbers := by
  have inside : ", ".intercalate (numbers.map toString) = Log.listed numbers := by
    induction numbers with
    | nil => rfl
    | cons number rest ih =>
      cases rest with
      | nil => rfl
      | cons next rest =>
        rw [List.map_cons, List.map_cons, String.intercalate_cons_cons, Log.listed, ← ih]
        rfl
  rw [numberList, inside, Log.bracketed]

private theorem render_ofRow (line : Nat) (regex : Regex) :
    (ofRow line regex).map render = Log.ofRow line regex := by
  simp only [ofRow, ofRegex, ofLine, List.map_append, List.map_map, List.map_cons, List.map_nil]
  unfold render message header
  simp only [Function.comp_def, numberList_eq, regex.render_eq, ← String.append_assoc,
    String.reduceAppend, Log.ofRow]
  exact List.append_assoc ..

private theorem render_ofSearch (dfas : List Dfa) : (ofSearch (Dfa.search dfas)).render =
    Log.ofAnswer (Dfa.tuplesMet dfas).length (Dfa.commonWord dfas) := by
  have met : (Dfa.tuplesMet dfas).length = (Dfa.search dfas).met := by
    simp [Dfa.tuplesMet, Dfa.search]
  rw [met, ofSearch, Dfa.commonWord]
  unfold render message header Log.ofAnswer
  cases (Dfa.search dfas).word with
  | none =>
    simp only [← String.append_assoc, String.reduceAppend]
    rfl
  | some word =>
    simp only [← String.append_assoc, String.reduceAppend]
    rfl

end Record

/-! ### The whole transcript -/

namespace Puzzle

/-- A run that leaves records answers as one without them. Its lines tell of the rows in their order,
    up to one that is no expression: first of the automaton of the row with the number of its
    accepting states, then of the states of the deterministic one under their numbers, then of the
    sizes of both, and then of the row under its number. If every row is an expression, the last
    line tells how long the answer is and how many tuples the search met, each of them once. -/
theorem transcript_eq (source : List Char) :
    ((Recording.solve source).run #[]).1 = solve source ∧
    (∀ error, solve source = .error error →
      (transcript source).map Record.render = told Log.ofRow 1 (Text.rows source)) ∧
    ∀ answer, solve source = .ok answer → ∃ puzzle, load source = .ok puzzle ∧
      (Dfa.tuplesMet puzzle.dfas).Nodup ∧
      (transcript source).map Record.render = told Log.ofRow 1 (Text.rows source) ++
        [Log.ofAnswer (Dfa.tuplesMet puzzle.dfas).length answer] := by
  have leaves := Recording.leaves_solve source #[]
  have records : transcript source =
      told Record.ofRow 1 (Text.rows source) ++ Recording.ending (load source) := by
    rw [transcript, StateT.run, leaves]
    simp
  have rows : (told Record.ofRow 1 (Text.rows source)).map Record.render =
      told Log.ofRow 1 (Text.rows source) := by
    simp only [map_told, Record.render_ofRow]
  refine ⟨by rw [StateT.run, leaves], ?_, ?_⟩
  · intro error refused
    rw [records, solve_eq_error_iff.mp refused, Recording.ending, List.append_nil, rows]
  · intro answer solved
    cases loaded : load source with
    | error error => simp [solve, loaded] at solved
    | ok puzzle =>
      obtain rfl : puzzle.solution = answer := by simpa [solve, loaded] using solved
      refine ⟨puzzle, rfl, Dfa.tuplesMet_nodup (load_ok loaded).2.2.wellFormed, ?_⟩
      rw [records, loaded, Recording.ending, List.map_append, rows, List.map_singleton,
        Record.render_ofSearch]
      rfl

end Puzzle

end CommonWord
