import CommonWord.CommandLine.Command
import CommonWord.Proofs.Alignment
import CommonWord.Proofs.Drawings
import CommonWord.Proofs.FileTrees

/-!
What a run of the command leaves behind.

Nothing is written before the whole puzzle is known to be good. The drawings are then written one
after the other, and the answer is printed only if all of them were. So a run that fails has printed
nothing, and the files that it wrote are whole and come first in the order of the drawings.
-/

namespace CommonWord.Command

open FileTree (Wrote)

/-! ### The paths of the drawings -/

/-- Two paths never lead to one place. -/
def Apart (path other : List Char) : Prop :=
  ∀ (tree : FileTree) (place : Place), tree.resolve path = .ok place →
    tree.resolve other ≠ .ok place

def drawingName (number : Nat) (kind : String) : Path.Name :=
  ['r', 'e', 'g', 'e', 'x', '-'] ++ Nat.toDigits 10 number ++ kind.toList

private theorem drawingPath_eq (directory : List Char) (number : Nat) (kind : String) :
    drawingPath directory number kind = Path.join directory (drawingName number kind) := by
  simp [drawingPath, drawingName]

/-- The ends of the names of drawings. -/
def kinds : List String := [".nfa.dot", ".dfa.dot"]

private theorem plain_drawingName (number : Nat) {kind : String} (known : kind ∈ kinds) :
    Path.Plain (drawingName number kind) := by
  have whole : '/' ∉ kind.toList := by
    revert known
    exact (show ∀ kind ∈ kinds, '/' ∉ kind.toList by decide) kind
  have digits : '/' ∉ Nat.toDigits 10 number := by
    intro member
    have digit := Nat.isDigit_of_mem_toDigits (by decide) (by decide) member
    contradiction
  constructor
  · simp [drawingName]
  · simp [drawingName, digits, whole]
  · simp [drawingName, Path.here]
  · simp [drawingName, Path.up]

private theorem drawingName_inj {number also : Nat} {kind other : String} (known : kind ∈ kinds)
    (alsoKnown : other ∈ kinds) (same : drawingName number kind = drawingName also other) :
    number = also ∧ kind = other := by
  have all : ∀ kind, kind ∈ kinds → kind.toList.length = 8 := by decide
  have long := (all kind known).trans (all other alsoKnown).symm
  obtain ⟨front, back⟩ := List.append_inj' same long
  exact ⟨Statement.toDigits_injective (List.append_cancel_left front), String.toList_inj.mp back⟩

private theorem apart_drawingPath (directory : List Char) {number also : Nat} {kind other : String}
    (known : kind ∈ kinds) (alsoKnown : other ∈ kinds) (distinct : number ≠ also ∨ kind ≠ other) :
    Apart (drawingPath directory number kind) (drawingPath directory also other) := by
  intro tree place
  rw [drawingPath_eq, drawingPath_eq]
  apply FileTree.resolve_join_ne (plain_drawingName number known) (plain_drawingName also alsoKnown)
  intro same
  obtain ⟨numbers, kinds⟩ := drawingName_inj known alsoKnown same
  rcases distinct with apart | apart
  · exact apart numbers
  · exact apart kinds

/-- The drawings of the automata of one expression, each with its path. -/
def drawingsOf (directory : List Char) (number : Nat) (regex : Regex) :
    List (List Char × List Char) :=
  [(drawingPath directory number ".nfa.dot", (Nfa.ofRegex regex).drawing.render),
    (drawingPath directory number ".dfa.dot", (Dfa.ofNfa (Nfa.ofRegex regex)).drawing.render)]

/-- The drawings of the automata of expressions, which are numbered from one. -/
def drawingFiles (directory : List Char) (regexes : List Regex) : List (List Char × List Char) :=
  (regexes.zipIdx 1).flatMap fun (regex, number) => drawingsOf directory number regex

private theorem mem_drawingsOf {directory : List Char} {number : Nat} {regex : Regex}
    {file : List Char × List Char} (member : file ∈ drawingsOf directory number regex) :
    ∃ kind, kind ∈ kinds ∧ file.1 = drawingPath directory number kind := by
  rcases List.mem_pair.mp member with rfl | rfl
  · exact ⟨".nfa.dot", by decide, rfl⟩
  · exact ⟨".dfa.dot", by decide, rfl⟩

private theorem drawings_ofEntries (directory : List Char) {entries : List Entry}
    (compile : Puzzle.Compiles entries) :
    drawings directory (Puzzle.ofEntries entries) =
      drawingFiles directory (entries.map (·.regex)) := by
  rw [drawings, drawingFiles, Puzzle.ofEntries, List.zip_map', List.zipIdx_map, List.zipIdx_map,
    List.flatMap_map, List.flatMap_map]
  apply List.flatMap_congr
  rintro ⟨entry, number⟩ member
  have known : entry ∈ entries := List.fst_mem_of_mem_zipIdx member
  obtain ⟨-, nfa, dfa⟩ := compile.stages known
  simp [drawingsOf, nfa, dfa]

private theorem apart_drawingFiles (directory : List Char) (regexes : List Regex) :
    (drawingFiles directory regexes).Pairwise fun file other => Apart file.1 other.1 := by
  apply List.pairwise_flatMap.mpr
  constructor
  · rintro ⟨regex, number⟩ -
    apply List.pairwise_pair.mpr
    exact apart_drawingPath directory (by decide) (by decide) (.inr (by decide))
  · have numbers : ((regexes.zipIdx 1).map (·.2)).Nodup := by
      rw [List.zipIdx_map_snd]
      exact List.nodup_range'
    refine (List.pairwise_map.mp numbers).imp ?_
    rintro ⟨regex, number⟩ ⟨other, also⟩ distinct file member next alsoMember
    obtain ⟨kind, known, path⟩ := mem_drawingsOf member
    obtain ⟨otherKind, alsoKnown, otherPath⟩ := mem_drawingsOf alsoMember
    rw [path, otherPath]
    exact apart_drawingPath directory known alsoKnown (.inl distinct)

/-! ### Steps of a run -/

private theorem run_bind {α β : Type} {first : StateM FileTree α} {next : α → StateM FileTree β}
    {tree between : FileTree} {value : α} (run : first.run tree = (value, between)) :
    (first >>= next).run tree = (next value).run between := by
  rw [StateT.run_bind, run]
  rfl

private theorem ensureDirectory_run (path : List Char) (tree : FileTree) :
    (ensureDirectory path : StateM FileTree _).run tree =
      match tree.createDirectory path with
      | .ok changed => (.ok (), changed)
      | .error error => if tree.isDirectory path then (.ok (), tree) else (.error error, tree) := by
  have making : (FileSystem.createDirectory path : StateM FileTree _).run tree =
      FileTree.change (·.createDirectory path) tree := rfl
  rw [FileTree.change] at making
  rw [ensureDirectory]
  cases made : tree.createDirectory path with
  | ok changed =>
    rw [made] at making
    exact run_bind making
  | error error =>
    rw [made] at making
    have looking : (FileSystem.isDirectory path : StateM FileTree _).run tree =
        (tree.isDirectory path, tree) := rfl
    rw [run_bind making, run_bind looking]
    cases tree.isDirectory path <;> rfl

private theorem ensureDirectory_spec (path : List Char) (tree : FileTree) :
    ∃ outcome after, (ensureDirectory path : StateM FileTree _).run tree = (outcome, after) ∧
      Wrote tree after [] ∧ ∀ error, outcome = .error error →
        after.createDirectory path = .error error ∧ after.isDirectory path = false := by
  rw [ensureDirectory_run]
  cases made : tree.createDirectory path with
  | ok changed => exact ⟨_, changed, rfl, FileTree.wrote_of_createDirectory made, by simp⟩
  | error error =>
    cases there : tree.isDirectory path with
    | true => exact ⟨_, tree, rfl, .refl tree, by simp⟩
    | false =>
      refine ⟨.error error, tree, rfl, .refl tree, ?_⟩
      rintro _ ⟨⟩
      exact ⟨made, there⟩

theorem ensureDirectories_spec (path : List Char) (above : List (List Char)) (tree : FileTree) :
    ∃ outcome after,
      (ensureDirectories path above : StateM FileTree _).run tree = (outcome, after) ∧
      Wrote tree after [] ∧ ∀ error, outcome = .error error → ∃ needed, needed ∈ path :: above ∧
        after.createDirectory needed = .error error ∧ after.isDirectory needed = false := by
  induction above generalizing path tree with
  | nil =>
    obtain ⟨outcome, after, run, wrote, refused⟩ := ensureDirectory_spec path tree
    exact ⟨outcome, after, run, wrote, fun error failed => ⟨path, by simp, refused error failed⟩⟩
  | cons parent above ih =>
    obtain ⟨outcome, between, run, wrote, refused⟩ := ensureDirectory_spec path tree
    rw [ensureDirectories, run_bind run]
    rcases outcome with error | ⟨⟩
    · have first : ∃ needed, needed ∈ path :: parent :: above ∧
          between.createDirectory needed = .error error ∧ between.isDirectory needed = false :=
        ⟨path, by simp, refused error rfl⟩
      cases error with
      | notFound =>
        obtain ⟨outcome, later, runAbove, wroteAbove, refusedAbove⟩ := ih parent between
        have wroteBoth : Wrote tree later [] := wrote.trans wroteAbove (by simp)
        rcases outcome with error | ⟨⟩
        · refine ⟨.error error, later, run_bind runAbove, wroteBoth, ?_⟩
          rintro _ ⟨⟩
          obtain ⟨needed, known, refusal⟩ := refusedAbove error rfl
          exact ⟨needed, List.mem_cons_of_mem path known, refusal⟩
        · -- With the directories above in place the same directory is tried again.
          obtain ⟨outcome, after, again, wroteLast, refusedLast⟩ := ensureDirectory_spec path later
          refine ⟨outcome, after, (run_bind runAbove).trans again,
            wroteBoth.trans wroteLast (by simp), ?_⟩
          intro error failed
          exact ⟨path, by simp, refusedLast error failed⟩
      | _ =>
        refine ⟨_, between, rfl, wrote, ?_⟩
        rintro _ ⟨⟩
        exact first
    · exact ⟨_, between, rfl, wrote, by simp⟩

private theorem writeFiles_run (path text : List Char) (rest : List (List Char × List Char))
    (tree : FileTree) : (writeFiles ((path, text) :: rest) : StateM FileTree _).run tree =
      match tree.writeFile path text with
      | .ok changed => (writeFiles rest : StateM FileTree _).run changed
      | .error error => (.error error, tree) := by
  have writing : (FileSystem.writeFile path text : StateM FileTree _).run tree =
      FileTree.change (·.writeFile path text) tree := rfl
  rw [FileTree.change] at writing
  rw [writeFiles]
  cases written : tree.writeFile path text with
  | ok changed =>
    rw [written] at writing
    exact run_bind writing
  | error error =>
    rw [written] at writing
    exact run_bind writing

/-- Files that are written in turn are all written, or those before the first that cannot be. -/
theorem writeFiles_spec {files : List (List Char × List Char)}
    (apart : files.Pairwise fun file other => Apart file.1 other.1) (tree : FileTree) :
    ∃ outcome after, (writeFiles files : StateM FileTree _).run tree = (outcome, after) ∧
      (outcome = .ok () ∧ Wrote tree after files ∨
        ∃ count path text error, outcome = .error error ∧ files[count]? = some (path, text) ∧
          Wrote tree after (files.take count) ∧ after.writeFile path text = .error error) := by
  induction files generalizing tree with
  | nil => exact ⟨.ok (), tree, rfl, .inl ⟨rfl, .refl tree⟩⟩
  | cons file rest ih =>
    obtain ⟨path, text⟩ := file
    obtain ⟨first, others⟩ := List.pairwise_cons.mp apart
    rw [writeFiles_run]
    cases written : tree.writeFile path text with
    | error error =>
      exact ⟨_, tree, rfl, .inr ⟨0, path, text, error, rfl, rfl, .refl tree, written⟩⟩
    | ok changed =>
      have wrote := FileTree.wrote_of_writeFile written
      obtain ⟨outcome, after, run, ended⟩ := ih others changed
      have more : ∀ late, late ⊆ rest → Wrote changed after late →
          Wrote tree after ((path, text) :: late) := by
        intro late known wroteLate
        apply wrote.trans wroteLate
        intro early _ other content member lateMember place
        obtain ⟨rfl, rfl⟩ := Prod.mk.inj (List.mem_singleton.mp member)
        exact first (other, content) (known lateMember) after place
      refine ⟨outcome, after, run, ?_⟩
      rcases ended with
        ⟨done, wroteRest⟩ | ⟨count, bad, content, error, failed, next, wroteRest, refused⟩
      · exact .inl ⟨done, more rest (List.Subset.refl rest) wroteRest⟩
      · exact .inr ⟨count + 1, bad, content, error, failed, next,
          more _ (List.take_subset count rest) wroteRest, refused⟩

/-! ### Runs -/

/-- Drawing into a directory stopped at what the tree that it left refuses to do: to make the
    directory or one above it, or to write the next file after the first few. -/
inductive Stopped (before after : FileTree) (directory : List Char)
    (files : List (List Char × List Char)) : Prop
  | directory (path : List Char) (error : FileError)
      (needed : path ∈ directory :: Path.ancestors directory) (wrote : Wrote before after [])
      (refused : after.createDirectory path = .error error)
      (absent : after.isDirectory path = false)
  | file (count : Nat) (path text : List Char) (error : FileError)
      (next : files[count]? = some (path, text)) (wrote : Wrote before after (files.take count))
      (refused : after.writeFile path text = .error error)

theorem draw_spec {puzzle : Puzzle} {directory : List Char}
    (apart : (drawings directory puzzle).Pairwise fun file other => Apart file.1 other.1)
    (tree : FileTree) :
    ∃ outcome after, (draw puzzle directory : StateM FileTree _).run tree = (outcome, after) ∧
      (outcome = .ok () ∧ Wrote tree after (drawings directory puzzle) ∨
        ∃ error, outcome = .error error ∧
          Stopped tree after directory (drawings directory puzzle)) := by
  obtain ⟨outcome, made, run, wrote, refused⟩ :=
    ensureDirectories_spec directory (Path.ancestors directory) tree
  rw [draw, run_bind run]
  rcases outcome with error | ⟨⟩
  · obtain ⟨path, needed, refusal, absent⟩ := refused error rfl
    exact ⟨_, made, rfl, .inr ⟨error, rfl, .directory path error needed wrote refusal absent⟩⟩
  · obtain ⟨outcome, after, run, ended⟩ := writeFiles_spec apart made
    refine ⟨outcome, after, run, ?_⟩
    rcases ended with ⟨done, all⟩ | ⟨count, path, text, error, failed, next, some, refusal⟩
    · exact .inl ⟨done, wrote.trans all (by simp)⟩
    · exact .inr ⟨error, failed,
        .file count path text error next (wrote.trans some (by simp)) refusal⟩

def answerLine : Option (List Char) → String
  | some word => String.ofList word ++ "\n"
  | none => "no common string\n"

private theorem output_success (answer : Option (List Char)) :
    (success answer).output = answerLine answer := by
  cases answer <;> rfl

/-- How a run ends whose file holds a good puzzle. The answer is printed unless a drawing that was
    asked for could not be made. -/
inductive Ends (before : FileTree) (regexes : List Regex) (answer : Option (List Char))
    (report : Report) : Option (List Char) → FileTree → Prop
  | answered (code : report.code = 0) (output : report.output = answerLine answer) :
      Ends before regexes answer report none before
  | drawn {directory : List Char} {after : FileTree} (code : report.code = 0)
      (output : report.output = answerLine answer)
      (wrote : Wrote before after (drawingFiles directory regexes)) :
      Ends before regexes answer report (some directory) after
  | stopped {directory : List Char} {after : FileTree} (code : report.code = 1)
      (output : report.output = "")
      (stopped : Stopped before after directory (drawingFiles directory regexes)) :
      Ends before regexes answer report (some directory) after

theorem solve_spec {entries : List Entry} (compile : Puzzle.Compiles entries)
    (directory : Option (List Char)) (tree : FileTree) :
    ∃ report after,
      (solve (Puzzle.ofEntries entries) directory : StateM FileTree _).run tree = (report, after) ∧
      Ends tree (entries.map (·.regex)) (Puzzle.ofEntries entries).solution report directory
        after := by
  cases directory with
  | none => exact ⟨_, tree, rfl, .answered rfl (output_success _)⟩
  | some directory =>
    have same := drawings_ofEntries directory compile
    have apart : (drawings directory (Puzzle.ofEntries entries)).Pairwise fun file other =>
        Apart file.1 other.1 := by
      rw [same]
      exact apart_drawingFiles directory (entries.map (·.regex))
    obtain ⟨outcome, after, run, ended⟩ := draw_spec apart tree
    rw [solve, run_bind run]
    rw [same] at ended
    rcases ended with ⟨rfl, wrote⟩ | ⟨error, rfl, stopped⟩
    · exact ⟨_, after, rfl, .drawn rfl (output_success _) wrote⟩
    · exact ⟨_, after, rfl, .stopped rfl rfl stopped⟩

/-- The file `p.txt` with two lines. -/
def twoLines : FileTree := .ofFiles [("p.txt".toList, Text.encode "(a|b)\nb".toList)]

example : ((run ["p.txt".toList, "--dot=out".toList] : StateM FileTree _).run twoLines).1 =
  ⟨0, "b\n", ""⟩ := by decide +kernel

end CommonWord.Command
