import CommonWord.Files.FileTree
import Mathlib.Data.List.Basic

/-!
What a change to a tree of files leaves as it was.

Directories stay where they are, so a path that leads to a place leads there ever after. The files
of one directory lie at places of their own, so no file is written over by the ones that follow it.
-/

namespace CommonWord

/-! ### Names in paths -/

namespace Path

private theorem fields_ne_nil (path : List Char) : fields path ≠ [] := by
  cases path with
  | nil => simp [fields]
  | cons c rest =>
    rw [fields]
    split
    · simp
    · split <;> simp

private theorem fields_append_slash (front back : List Char) :
    fields (front ++ '/' :: back) = fields front ++ fields back := by
  induction front with
  | nil =>
    cases found : fields back with
    | nil => exact absurd found (fields_ne_nil back)
    | cons first others => simp [fields, found]
  | cons c front ih =>
    cases found : fields front with
    | nil => exact absurd found (fields_ne_nil front)
    | cons first others =>
      rw [found, List.cons_append] at ih
      by_cases slash : c = '/'
      · simp [fields, ih, found, slash]
      · simp [fields, ih, found, slash]

private theorem fields_of_not_mem {name : Name} (whole : '/' ∉ name) : fields name = [name] := by
  induction name with
  | nil => rfl
  | cons c rest ih =>
    rw [List.mem_cons, not_or] at whole
    simp [fields, ih whole.2, Ne.symm whole.1]

private theorem names_append_slash (front back : List Char) :
    names (front ++ '/' :: back) = names front ++ names back := by
  rw [names, fields_append_slash, List.filter_append]
  rfl

/-- A name that an entry of a directory can have. -/
structure Plain (name : Name) : Prop where
  filled : name ≠ []
  whole : '/' ∉ name
  ne_here : name ≠ here
  ne_up : name ≠ up

theorem Plain.names_eq {name : Name} (plain : Plain name) : names name = [name] := by
  simp [names, fields_of_not_mem plain.whole, plain.filled]

private theorem Plain.endsInSlash_append {name : Name} (plain : Plain name) (front : List Char) :
    endsInSlash (front ++ '/' :: name) = false := by
  have last : (front ++ '/' :: name).getLast? = some (name.getLast plain.filled) := by
    simp [List.getLast?_append, List.getLast?_cons, List.getLast?_eq_some_getLast plain.filled]
  have other : name.getLast plain.filled ≠ '/' := by
    intro same
    exact plain.whole (same ▸ List.getLast_mem plain.filled)
  simp [endsInSlash, last, other]

/-- The directory comes before one slash. -/
private theorem exists_join_eq (directory : List Char) :
    ∃ front, ∀ name, join directory name = front ++ '/' :: name := by
  cases slash : endsInSlash directory with
  | true =>
    obtain ⟨front, rfl⟩ := List.getLast?_eq_some_iff.mp (eq_of_beq slash)
    exact ⟨front, fun name => by simp [join, slash]⟩
  | false => exact ⟨directory, fun name => by simp [join, slash]⟩

end Path

namespace FileTree

/-! ### Places -/

variable {before after tree changed : FileTree}

private theorem lookup_filter_ne {place other : Place} (apart : other ≠ place)
    (nodes : List (Place × Node)) :
    (nodes.filter fun entry => entry.1 != place).lookup other = nodes.lookup other := by
  induction nodes with
  | nil => rfl
  | cons entry rest ih =>
    obtain ⟨key, node⟩ := entry
    by_cases same : key = place
    · subst same
      simp [List.lookup_cons, beq_false_of_ne apart, ih]
    · simp [same, List.lookup_cons, ih]

theorem node?_put {place : Place} (below : place ≠ []) (node : Node) (other : Place) :
    (tree.put place node).node? other = if other = place then some node else tree.node? other := by
  by_cases same : other = place
  · subst same
    simp [node?, put, below]
  · simp [node?, put, List.lookup_cons, beq_false_of_ne same, same, lookup_filter_ne same]

/-- Relative paths begin where they began, and every directory is one that was there before or was
    made since. -/
structure Keeps (before after : FileTree) : Prop where
  working : after.working = before.working
  directories : ∀ place, before.node? place = some .directory →
    after.node? place = some .directory

theorem Keeps.refl (tree : FileTree) : Keeps tree tree := ⟨rfl, fun _ found => found⟩

theorem Keeps.trans {between : FileTree} (first : Keeps before between)
    (second : Keeps between after) : Keeps before after :=
  ⟨second.working.trans first.working,
    fun place found => second.directories place (first.directories place found)⟩

private theorem enter_eq_ok {place next : Place} {name : Path.Name}
    (entered : tree.enter place name = .ok next) : tree.node? place = some .directory := by
  unfold enter at entered
  split at entered
  · contradiction
  · contradiction
  · next found => exact found

private theorem Keeps.enter (keeps : Keeps before after) {place next : Place} {name : Path.Name}
    (entered : before.enter place name = .ok next) : after.enter place name = .ok next := by
  have directory := enter_eq_ok entered
  rw [← entered, FileTree.enter, FileTree.enter, directory, keeps.directories place directory]

private theorem Keeps.foldlM_enter (keeps : Keeps before after) {names : List Path.Name}
    {start place : Place} (entered : names.foldlM before.enter start = .ok place) :
    names.foldlM after.enter start = .ok place := by
  induction names generalizing start with
  | nil => exact entered
  | cons name rest ih =>
    rw [List.foldlM_cons] at entered ⊢
    cases first : before.enter start name with
    | error error =>
      rw [first] at entered
      contradiction
    | ok next =>
      rw [first] at entered
      rw [keeps.enter first]
      exact ih entered

private theorem Keeps.resolve (keeps : Keeps before after) {path : List Char} {place : Place}
    (resolved : before.resolve path = .ok place) : after.resolve path = .ok place := by
  unfold FileTree.resolve follow at resolved ⊢
  split at resolved
  · contradiction
  · next filled =>
    rw [if_neg filled, keeps.working]
    exact keeps.foldlM_enter resolved

private theorem keeps_put {place : Place} {node : Node} (below : place ≠ [])
    (room : tree.node? place = some .directory → node = .directory) :
    Keeps tree (tree.put place node) := by
  refine ⟨rfl, ?_⟩
  intro other found
  rw [node?_put below]
  by_cases same : other = place
  · subst same
    simp [room found]
  · simp [same, found]

/-! ### The files of one directory -/

/-- The place below which the entries of a directory lie. -/
def home (tree : FileTree) (directory : List Char) : Except FileError Place :=
  tree.follow (Path.join directory []) (Path.names (Path.join directory []))

private theorem resolve_join {name : Path.Name} (plain : Path.Plain name) (directory : List Char) :
    tree.resolve (Path.join directory name) =
      tree.home directory >>= fun place => tree.enter place name := by
  obtain ⟨front, same⟩ := Path.exists_join_eq directory
  have absolute : Path.isAbsolute (front ++ '/' :: name) = Path.isAbsolute (front ++ ['/']) := by
    cases front <;> rfl
  have nothing : Path.names [] = [] := rfl
  simp [resolve, home, same, follow, absolute, plain.endsInSlash_append, Path.names_append_slash,
    plain.names_eq, nothing, List.foldlM_append]

/-- The entries of a directory lie right below one place, each under its name. -/
private theorem resolve_join_eq_ok {name : Path.Name} (plain : Path.Plain name)
    {directory : List Char}
    {place : Place} (resolved : tree.resolve (Path.join directory name) = .ok place) :
    ∃ above, tree.home directory = .ok above ∧ place = name :: above := by
  rw [resolve_join plain] at resolved
  cases found : tree.home directory with
  | error error =>
    rw [found] at resolved
    contradiction
  | ok above =>
    rw [found] at resolved
    have entered : tree.enter above name = .ok place := resolved
    refine ⟨above, rfl, ?_⟩
    rw [enter, enter_eq_ok entered] at entered
    simpa [plain.ne_here, plain.ne_up, eq_comm] using entered

theorem resolve_join_ne {name other : Path.Name} (plain : Path.Plain name)
    (otherPlain : Path.Plain other) (apart : name ≠ other) {directory : List Char} {place : Place}
    (resolved : tree.resolve (Path.join directory name) = .ok place) :
    tree.resolve (Path.join directory other) ≠ .ok place := by
  intro also
  obtain ⟨above, -, rfl⟩ := resolve_join_eq_ok plain resolved
  obtain ⟨_, -, same⟩ := resolve_join_eq_ok otherPlain also
  exact apart (List.cons.inj same).1

/-! ### Changes -/

/-- Exactly these files were written. Each holds its whole text at the place to which its path
    leads, and elsewhere there is what was there before, or a directory that was made where nothing
    was. -/
structure Wrote (before after : FileTree) (files : List (List Char × List Char)) : Prop where
  keeps : Keeps before after
  written : ∀ path text, (path, text) ∈ files → ∃ place, after.resolve path = .ok place ∧
    after.node? place = some (.file (Text.encode text))
  others : ∀ place, (∀ path text, (path, text) ∈ files → after.resolve path ≠ .ok place) →
    after.node? place = before.node? place ∨
      before.node? place = none ∧ after.node? place = some .directory

theorem Wrote.refl (tree : FileTree) : Wrote tree tree [] :=
  ⟨.refl tree, by simp, fun _ _ => .inl rfl⟩

theorem Wrote.trans {between : FileTree} {files others : List (List Char × List Char)}
    (first : Wrote before between files) (second : Wrote between after others)
    (apart : ∀ path text other content, (path, text) ∈ files → (other, content) ∈ others →
      ∀ place, after.resolve path = .ok place → after.resolve other ≠ .ok place) :
    Wrote before after (files ++ others) := by
  refine ⟨first.keeps.trans second.keeps, ?_, ?_⟩
  · intro path text member
    rcases List.mem_append.mp member with early | late
    · -- The place of the early file is a file and not free, so it is neither written over nor made.
      obtain ⟨place, leads, holds⟩ := first.written path text early
      have still := second.keeps.resolve leads
      refine ⟨place, still, ?_⟩
      rcases second.others place fun other content known =>
        apart path text other content early known place still with same | ⟨free, -⟩
      · exact same.trans holds
      · rw [holds] at free
        contradiction
    · exact second.written path text late
  · intro place missed
    have early := first.others place fun path text known leads =>
      missed path text (List.mem_append_left _ known) (second.keeps.resolve leads)
    have late := second.others place fun path text known =>
      missed path text (List.mem_append_right _ known)
    rcases late with same | ⟨free, made⟩
    · rw [same]
      exact early
    · rcases early with same | ⟨-, already⟩
      · exact .inr ⟨same.symm.trans free, made⟩
      · rw [already] at free
        contradiction

theorem wrote_of_createDirectory {path : List Char}
    (made : tree.createDirectory path = .ok changed) : Wrote tree changed [] := by
  unfold createDirectory at made
  split at made
  · contradiction
  · next place _ =>
    split at made
    · contradiction
    · next free =>
      obtain rfl := Except.ok.inj made
      have below : place ≠ [] := by
        rintro rfl
        simp [node?] at free
      refine ⟨keeps_put below fun _ => rfl, by simp, ?_⟩
      intro other _
      rw [node?_put below]
      by_cases same : other = place
      · exact .inr ⟨same ▸ free, if_pos same⟩
      · exact .inl (if_neg same)

theorem wrote_of_writeFile {path text : List Char}
    (written : tree.writeFile path text = .ok changed) : Wrote tree changed [(path, text)] := by
  unfold writeFile at written
  split at written
  · contradiction
  · next place leads =>
    split at written
    · contradiction
    · next room =>
      obtain rfl := Except.ok.inj written
      have below : place ≠ [] := by
        rintro rfl
        exact room rfl
      have keeps : Keeps tree (tree.put place (.file (Text.encode text))) :=
        keeps_put below fun directory => absurd directory room
      refine ⟨keeps, ?_, ?_⟩
      · intro other content member
        obtain ⟨rfl, rfl⟩ := Prod.mk.inj (List.mem_singleton.mp member)
        exact ⟨place, keeps.resolve leads, by simp [node?_put below]⟩
      · intro other missed
        have apart : other ≠ place := by
          rintro rfl
          exact missed path text (List.mem_singleton_self _) (keeps.resolve leads)
        exact .inl (by simp [node?_put below, apart])

end FileTree

end CommonWord
