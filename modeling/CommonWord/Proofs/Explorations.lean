import CommonWord.Exploration
import CommonWord.Proofs.WordOrder
import Mathlib.Data.List.Forall2
import Mathlib.Data.List.Induction

/-!
What holds at every point of an exploration, and what holds at its end.

Keys are met in the shortlex order of the words that lead to them, each with the least such word.
So an exploration that ends has met every key that some word leads to, and one that stops at a goal
has found the least word that leads to any.
-/

namespace CommonWord

open Word

namespace Graph

/-- The edges out of every key ascend by their labels. -/
def Ordered (graph : Graph) : Prop :=
  ∀ key, (graph.next key).Pairwise fun first second => first.1 < second.1

theorem walk?_concat (graph : Graph) (key : Key) (word : List Char) (c : Char) :
    graph.walk? key (word ++ [c]) = (graph.walk? key word).bind (graph.step? · c) := by
  simp [walk?, List.foldlM_append]

theorem lookup_of_mem {Target : Type} {edges : List (Char × Target)} {label : Char}
    {target : Target}
    (ordered : edges.Pairwise fun first second => first.1 < second.1)
    (member : (label, target) ∈ edges) : edges.lookup label = some target := by
  induction edges with
  | nil => contradiction
  | cons first rest ih =>
    obtain ⟨later, restOrdered⟩ := List.pairwise_cons.mp ordered
    rcases List.mem_cons.mp member with rfl | inRest
    · simp
    · have less := later _ inRest
      have other : (label == first.1) = false := by simpa using (ne_of_lt less).symm
      rw [List.lookup_cons, other]
      exact ih restOrdered inRest

theorem mem_of_lookup {Target : Type} {edges : List (Char × Target)} {label : Char}
    {target : Target} (found : edges.lookup label = some target) : (label, target) ∈ edges := by
  induction edges with
  | nil => contradiction
  | cons first rest ih =>
    rw [List.lookup_cons] at found
    split at found
    · next same =>
      obtain rfl := Option.some.inj found
      obtain rfl := eq_of_beq same
      exact .head _
    · exact .tail _ (ih found)

end Graph

namespace Exploration

/-- Later keys have later words. -/
def Ascending (found : Array Discovery) : Prop :=
  ∀ (i j : Nat) (first second : Discovery), i < j → found[i]? = some first →
    found[j]? = some second → Precedes first.word second.word

/-- The numbers of the keys are their places, so no key is found twice. -/
def Indexed (exploration : Exploration) : Prop :=
  ∀ (key : Key) (number : Nat), exploration.index[key]? = some number ↔
    ∃ trail : List Char, exploration.found[number]? = some ⟨key, trail⟩

/-- A row names the targets of the edges out of a key, each found by a word that is not after the
    one by way of that key. -/
def Row (found : Array Discovery) (trail : List Char) :
    List (Char × Key) → List (Char × Nat) → Prop :=
  List.Forall₂ fun edge entry => edge.1 = entry.1 ∧ ∃ target, found[entry.2]? = some target ∧
    target.key = edge.2 ∧ NotAfter target.word (trail.reverse ++ [edge.1])

/-- What holds of an exploration at every point. -/
structure Invariant (graph : Graph) (exploration : Exploration) : Prop where
  start : exploration.found[0]? = some ⟨graph.start, []⟩
  indexed : exploration.Indexed
  ascending : Ascending exploration.found
  walks : ∀ (number : Nat) (discovery : Discovery), exploration.found[number]? = some discovery →
    graph.walk? graph.start discovery.word = some discovery.key
  expanded : exploration.edges.size ≤ exploration.found.size
  rows : ∀ (number : Nat) (discovery : Discovery) (row : List (Char × Nat)),
    exploration.found[number]? = some discovery → exploration.edges[number]? = some row →
    Row exploration.found discovery.trail (graph.next discovery.key) row
  /-- Whatever was found comes before what the next expansion can find. -/
  front : ∀ (number : Nat) (discovery next : Discovery) (c : Char),
    exploration.found[number]? = some discovery → exploration.pending? = some next →
    Precedes discovery.word (next.word ++ [c])

variable {graph : Graph} {goal : Key → Bool} {keys : List Key} {exploration : Exploration}
  {discovery : Discovery}

/-! ### One visit -/

private theorem visit_edges (exploration : Exploration) (key : Key) (trail : List Char) :
    (exploration.visit key trail).2.edges = exploration.edges := by
  unfold visit
  split <;> rfl

private theorem visitAll_edges (trail : List Char) (edges : List (Char × Key))
    (exploration : Exploration) :
    (visitAll trail edges exploration).2.edges = exploration.edges := by
  induction edges generalizing exploration with
  | nil => rfl
  | cons edge rest ih => exact (ih _).trans (visit_edges ..)

/-- All that a visit can do: it finds the number of a key met before, or it numbers a new one. -/
private theorem visit_cases (indexed : exploration.Indexed) (key : Key) (trail : List Char) :
    ((exploration.visit key trail).2 = exploration ∧
      ∃ old, exploration.found[(exploration.visit key trail).1]? = some ⟨key, old⟩) ∨
    ((exploration.visit key trail).2.found = exploration.found.push ⟨key, trail⟩ ∧
      (exploration.visit key trail).1 = exploration.found.size) := by
  unfold visit
  split
  · next number met => exact .inl ⟨rfl, (indexed key number).mp met⟩
  · exact .inr ⟨rfl, rfl⟩

private theorem visit_indexed (indexed : exploration.Indexed) (key : Key) (trail : List Char) :
    (exploration.visit key trail).2.Indexed := by
  obtain ⟨found, index, edges⟩ := exploration
  unfold visit
  split
  · exact indexed
  · next new =>
    intro other number
    change (index.insert key found.size)[other]? = some number ↔
      ∃ way, (found.push ⟨key, trail⟩)[number]? = some ⟨other, way⟩
    rw [Std.TreeMap.getElem?_insert, Array.getElem?_push]
    by_cases same : key = other
    · subst same
      have absent : ∀ way, found[number]? ≠ some ⟨key, way⟩ := fun way met => by
        have known := (indexed key number).mpr ⟨way, met⟩
        rw [new] at known
        contradiction
      simp only [Std.ReflCmp.compare_self, if_true, Option.some.injEq]
      constructor
      · rintro rfl
        exact ⟨trail, by simp⟩
      · rintro ⟨way, place⟩
        split at place
        · next last => exact last.symm
        · exact absurd place (absent way)
    · have apart : compareKeys key other ≠ .eq := fun equal =>
        same (Std.LawfulEqCmp.eq_of_compare equal)
      rw [if_neg apart]
      refine (indexed other number).trans ⟨?_, ?_⟩
      · rintro ⟨way, place⟩
        have inside := (Array.getElem?_eq_some_iff.mp place).1
        exact ⟨way, by rw [if_neg (Nat.ne_of_lt inside), place]⟩
      · rintro ⟨way, place⟩
        split at place
        · exact absurd (congrArg Discovery.key (Option.some.inj place)) same
        · exact ⟨way, place⟩

private theorem visit_kept (indexed : exploration.Indexed) (key : Key) (trail : List Char)
    {number : Nat} (old : exploration.found[number]? = some discovery) :
    (exploration.visit key trail).2.found[number]? = some discovery := by
  rcases visit_cases indexed key trail with ⟨same, -⟩ | ⟨pushed, -⟩
  · rw [same, old]
  · have inside := (Array.getElem?_eq_some_iff.mp old).1
    rw [pushed, Array.getElem?_push, if_neg (Nat.ne_of_lt inside), old]

private theorem visit_new (indexed : exploration.Indexed) (key : Key) (trail : List Char)
    {number : Nat} (place : (exploration.visit key trail).2.found[number]? = some discovery) :
    exploration.found[number]? = some discovery ∨ discovery = ⟨key, trail⟩ := by
  rcases visit_cases indexed key trail with ⟨same, -⟩ | ⟨pushed, -⟩
  · rw [same] at place
    exact .inl place
  · rw [pushed, Array.getElem?_push] at place
    split at place
    · exact .inr (Option.some.inj place).symm
    · exact .inl place

private theorem visit_met (indexed : exploration.Indexed) (key : Key) (trail : List Char) :
    ∃ way, (exploration.visit key trail).2.found[(exploration.visit key trail).1]? =
        some ⟨key, way⟩ ∧
      (way = trail ∨ ∃ number : Nat, exploration.found[number]? = some ⟨key, way⟩) := by
  rcases visit_cases indexed key trail with ⟨same, way, met⟩ | ⟨pushed, number⟩
  · exact ⟨way, by rw [same, met], .inr ⟨_, met⟩⟩
  · exact ⟨trail, by rw [number, pushed, Array.getElem?_push_size], .inl rfl⟩

/-! ### One expansion -/

/-- What the visits of the targets of some edges leave: the first of two explorations has grown to
    the second, which names the targets in a row. -/
structure Grows (trail : List Char) (edges : List (Char × Key)) (before after : Exploration)
    (row : List (Char × Nat)) : Prop where
  indexed : after.Indexed
  ascending : Ascending after.found
  kept : ∀ (number : Nat) (discovery : Discovery), before.found[number]? = some discovery →
    after.found[number]? = some discovery
  new : ∀ (number : Nat) (discovery : Discovery), after.found[number]? = some discovery →
    before.found[number]? = some discovery ∨
      ∃ edge, edge ∈ edges ∧ discovery = ⟨edge.2, edge.1 :: trail⟩
  row : Row after.found trail edges row

private theorem Row.kept {before after : Array Discovery} {trail : List Char}
    {edges : List (Char × Key)} {row : List (Char × Nat)} (old : Row before trail edges row)
    (kept : ∀ (number : Nat) (discovery : Discovery), before[number]? = some discovery →
      after[number]? = some discovery) : Row after trail edges row := by
  refine List.Forall₂.imp ?_ old
  rintro edge entry ⟨label, target, met, key, least⟩
  exact ⟨label, target, kept _ _ met, key, least⟩

private theorem visit_ascending (indexed : exploration.Indexed)
    (ascending : Ascending exploration.found) (key : Key) (trail : List Char)
    (last : ∀ (number : Nat) (discovery : Discovery),
      exploration.found[number]? = some discovery → Precedes discovery.word trail.reverse) :
    Ascending (exploration.visit key trail).2.found := by
  rcases visit_cases indexed key trail with ⟨same, -⟩ | ⟨pushed, -⟩
  · rwa [same]
  · rw [pushed]
    intro i j first second less before after
    rw [Array.getElem?_push] at before after
    have bound : j ≤ exploration.found.size := by
      split at after
      · omega
      · exact Nat.le_of_lt (Array.getElem?_eq_some_iff.mp after).1
    rw [if_neg (by omega)] at before
    split at after
    · obtain rfl := Option.some.inj after
      exact last i first before
    · exact ascending i j first second less before after

private theorem visitAll_grows (trail : List Char) (edges : List (Char × Key))
    (exploration : Exploration)
    (indexed : exploration.Indexed) (ascending : Ascending exploration.found)
    (ordered : edges.Pairwise fun first second => first.1 < second.1)
    (last : ∀ (number : Nat) (discovery : Discovery) (edge : Char × Key), edge ∈ edges →
      exploration.found[number]? = some discovery →
      Precedes discovery.word (trail.reverse ++ [edge.1])) :
    Grows trail edges exploration (visitAll trail edges exploration).2
      (visitAll trail edges exploration).1 := by
  induction edges generalizing exploration with
  | nil => exact ⟨indexed, ascending, fun _ _ old => old, fun _ _ old => .inl old, .nil⟩
  | cons edge rest ih =>
    obtain ⟨label, key⟩ := edge
    obtain ⟨later, restOrdered⟩ := List.pairwise_cons.mp ordered
    have spelled : (label :: trail).reverse = trail.reverse ++ [label] := List.reverse_cons
    have nextAscending : Ascending (exploration.visit key (label :: trail)).2.found :=
      visit_ascending indexed ascending key (label :: trail) fun number discovery old =>
        spelled ▸ last number discovery (label, key) (.head _) old
    have grows := ih (exploration.visit key (label :: trail)).2
      (visit_indexed indexed key (label :: trail)) nextAscending restOrdered
      (by
        intro number discovery edge member place
        rcases visit_new indexed key (label :: trail) place with old | rfl
        · exact last number discovery edge (.tail _ member) old
        · rw [Discovery.word, spelled]
          exact precedes_concat_of_lt trail.reverse (later edge member))
    obtain ⟨way, met, least⟩ := visit_met indexed key (label :: trail)
    refine ⟨grows.indexed, grows.ascending,
      fun number discovery old => grows.kept _ _ (visit_kept indexed key _ old), ?_,
      .cons ⟨rfl, ⟨key, way⟩, grows.kept _ _ met, rfl, ?_⟩ grows.row⟩
    · intro number discovery place
      rcases grows.new number discovery place with old | ⟨edge, member, new⟩
      · rcases visit_new indexed key (label :: trail) old with older | new
        · exact .inl older
        · exact .inr ⟨(label, key), .head _, new⟩
      · exact .inr ⟨edge, .tail _ member, new⟩
    · rcases least with rfl | ⟨number, old⟩
      · exact .inl spelled
      · exact .inr (last number _ (label, key) (.head _) old)

/-- All that an expansion does: the exploration grows, and gets the row of the key that was due. -/
theorem Invariant.expand_grows (invariant : exploration.Invariant graph) (ordered : graph.Ordered)
    (due : exploration.pending? = some discovery) :
    ∃ row, (exploration.expand graph discovery).edges = exploration.edges.push row ∧
      Grows discovery.trail (graph.next discovery.key) exploration
        (exploration.expand graph discovery) row := by
  have grows := visitAll_grows discovery.trail (graph.next discovery.key) exploration
    invariant.indexed invariant.ascending (ordered discovery.key)
    fun number old edge _ met => invariant.front number old discovery edge.1 met due
  refine ⟨_, congrArg (Array.push · _) (visitAll_edges ..), ?_⟩
  exact ⟨grows.indexed, grows.ascending, grows.kept, grows.new, grows.row⟩

/-- The first expansion that is due keeps all that holds. -/
theorem Invariant.expand (invariant : exploration.Invariant graph) (ordered : graph.Ordered)
    (due : exploration.pending? = some discovery) :
    (exploration.expand graph discovery).Invariant graph := by
  have place : exploration.found[exploration.edges.size]? = some discovery := due
  obtain ⟨row, edges, grows⟩ := invariant.expand_grows ordered due
  have still := grows.kept _ _ place
  have spelled : ∀ edge : Char × Key, Discovery.word ⟨edge.2, edge.1 :: discovery.trail⟩ =
      discovery.word ++ [edge.1] := fun edge => List.reverse_cons
  refine ⟨grows.kept _ _ invariant.start, grows.indexed, grows.ascending, ?_, ?_, ?_, ?_⟩
  · intro number found met
    rcases grows.new number found met with old | ⟨edge, member, rfl⟩
    · exact invariant.walks number found old
    · rw [spelled, Graph.walk?_concat, invariant.walks _ _ place]
      exact Graph.lookup_of_mem (ordered discovery.key) member
  · rw [edges, Array.size_push]
    exact (Array.getElem?_eq_some_iff.mp still).1
  · intro number found row met known
    rw [edges, Array.getElem?_push] at known
    split at known
    · next last =>
      obtain rfl := Option.some.inj known
      obtain rfl := Option.some.inj ((last ▸ still).symm.trans met)
      exact grows.row
    · have inside := (Array.getElem?_eq_some_iff.mp known).1
      have old := Array.getElem?_eq_getElem (Nat.lt_of_lt_of_le inside invariant.expanded)
      obtain rfl := Option.some.inj ((grows.kept _ _ old).symm.trans met)
      exact (invariant.rows number _ row old known).kept grows.kept
  · intro number found next c met nextDue
    rw [pending?, edges, Array.size_push] at nextDue
    have later : Precedes discovery.word next.word :=
      grows.ascending _ _ discovery next (Nat.lt_succ_self _) still nextDue
    rcases grows.new number found met with old | ⟨edge, member, rfl⟩
    · exact (invariant.front number found discovery c old due).trans (later.concat c c)
    · rw [spelled]
      exact later.concat edge.1 c

/-! ### The start -/

private theorem empty_indexed : empty.Indexed := by
  intro key number
  simp [empty]

private theorem enter_eq (graph : Graph) :
    (initial graph).found = #[⟨graph.start, []⟩] ∧ (enter graph).1 = 0 := by
  rcases visit_cases empty_indexed graph.start [] with ⟨-, old, met⟩ | ⟨pushed, number⟩
  · simp [empty] at met
  · exact ⟨pushed, number⟩

/-- The start gets the first number. -/
theorem enter_fst (graph : Graph) : (enter graph).1 = 0 := (enter_eq graph).2

private theorem edges_initial (graph : Graph) : (initial graph).edges = #[] := visit_edges ..

theorem invariant_initial (graph : Graph) : (initial graph).Invariant graph := by
  have start : (initial graph).found[0]? = some ⟨graph.start, []⟩ := by
    rw [(enter_eq graph).1]
    rfl
  have only : ∀ (number : Nat) (discovery : Discovery),
      (initial graph).found[number]? = some discovery →
        number = 0 ∧ discovery = ⟨graph.start, []⟩ := by
    intro number discovery met
    have inside := (Array.getElem?_eq_some_iff.mp met).1
    obtain rfl : number = 0 := by simpa [(enter_eq graph).1] using inside
    exact ⟨rfl, Option.some.inj (met.symm.trans start)⟩
  constructor
  case start => exact start
  case indexed => exact visit_indexed empty_indexed graph.start []
  case ascending =>
    intro i j first second less before after
    obtain ⟨rfl, -⟩ := only _ _ after
    omega
  case walks =>
    intro number discovery met
    obtain ⟨-, rfl⟩ := only _ _ met
    rfl
  case expanded =>
    rw [edges_initial]
    exact Nat.zero_le _
  case rows =>
    intro number discovery row met known
    simp [edges_initial] at known
  case front =>
    intro number discovery next c met due
    obtain ⟨-, rfl⟩ := only _ _ met
    obtain ⟨-, rfl⟩ := only _ _ due
    exact precedes_concat [] c

/-! ### The whole exploration -/

/-- No key expanded so far is a goal. -/
def Passed (goal : Key → Bool) (exploration : Exploration) : Prop :=
  ∀ (number : Nat) (discovery : Discovery), number < exploration.edges.size →
    exploration.found[number]? = some discovery → goal discovery.key = false

/-- No key is left to expand, or the next one is a goal. -/
def Ended (goal : Key → Bool) (exploration : Exploration) : Prop :=
  ∀ discovery, exploration.pending? = some discovery → goal discovery.key = true

/-- Keys that an exploration cannot leave. -/
structure Universe (graph : Graph) (keys : List Key) : Prop where
  start : graph.start ∈ keys
  next : ∀ key, key ∈ keys → ∀ edge, edge ∈ graph.next key → edge.2 ∈ keys

theorem Universe.walk (closed : Universe graph keys) (word : List Char) {source target : Key}
    (inside : source ∈ keys) (walked : graph.walk? source word = some target) :
    target ∈ keys := by
  induction word generalizing source with
  | nil =>
    obtain rfl := Option.some.inj walked
    exact inside
  | cons c word ih =>
    simp only [Graph.walk?, List.foldlM_cons] at walked
    obtain ⟨middle, step, rest⟩ := Option.bind_eq_some_iff.mp walked
    exact ih (closed.next source inside _ (Graph.mem_of_lookup step)) rest

theorem Indexed.unique (indexed : exploration.Indexed) {i j : Nat} {first second : Discovery}
    (one : exploration.found[i]? = some first) (two : exploration.found[j]? = some second)
    (same : first.key = second.key) : i = j := by
  have left := (indexed first.key i).mpr ⟨first.trail, one⟩
  have right := (indexed first.key j).mpr ⟨second.trail, by rw [same, two]⟩
  exact Option.some.inj (left.symm.trans right)

theorem mem_map_found_iff {View : Type} (view : Discovery → View) (value : View) :
    value ∈ exploration.found.toList.map view ↔ ∃ (number : Nat) (discovery : Discovery),
      exploration.found[number]? = some discovery ∧ view discovery = value := by
  simp only [List.mem_map, Array.mem_toList_iff, Array.mem_iff_getElem?]
  constructor
  · rintro ⟨discovery, ⟨number, met⟩, rfl⟩
    exact ⟨number, discovery, met, rfl⟩
  · rintro ⟨number, discovery, met, rfl⟩
    exact ⟨discovery, ⟨number, met⟩, rfl⟩

theorem Invariant.keys_nodup (invariant : exploration.Invariant graph) :
    (exploration.found.toList.map (·.key)).Nodup := by
  rw [List.Nodup, List.pairwise_map, List.pairwise_iff_getElem]
  intro i j left right less same
  have := invariant.indexed.unique (Array.getElem?_eq_getElem left)
    (Array.getElem?_eq_getElem right) same
  omega

theorem Invariant.found_le (invariant : exploration.Invariant graph)
    (closed : Universe graph keys) : exploration.found.size ≤ keys.length := by
  have inside : exploration.found.toList.map (·.key) ⊆ keys := by
    intro key member
    obtain ⟨number, discovery, met, rfl⟩ := (mem_map_found_iff Discovery.key key).mp member
    exact closed.walk _ closed.start (invariant.walks number discovery met)
  simpa using invariant.keys_nodup.length_le_of_subset inside

theorem Invariant.expand_size (invariant : exploration.Invariant graph) (ordered : graph.Ordered)
    (due : exploration.pending? = some discovery) :
    (exploration.expand graph discovery).edges.size = exploration.edges.size + 1 := by
  obtain ⟨row, edges, -⟩ := invariant.expand_grows ordered due
  rw [edges, Array.size_push]

private theorem Passed.expand (passed : exploration.Passed goal)
    (invariant : exploration.Invariant graph)
    (ordered : graph.Ordered) (due : exploration.pending? = some discovery)
    (other : goal discovery.key = false) :
    (exploration.expand graph discovery).Passed goal := by
  intro number found below met
  rw [invariant.expand_size ordered due] at below
  obtain ⟨row, -, grows⟩ := invariant.expand_grows ordered due
  have last := (Array.getElem?_eq_some_iff.mp due).1
  obtain ⟨old, place⟩ : ∃ old, exploration.found[number]? = some old :=
    ⟨_, Array.getElem?_eq_getElem (by omega)⟩
  obtain rfl := Option.some.inj ((grows.kept _ _ place).symm.trans met)
  by_cases earlier : number < exploration.edges.size
  · exact passed number old earlier place
  · obtain rfl : number = exploration.edges.size := by omega
    obtain rfl := Option.some.inj (due.symm.trans place)
    exact other

/-- With enough expansions left an exploration comes to its end. -/
theorem run_spec (ordered : graph.Ordered) (closed : Universe graph keys) (bound : Nat)
    (exploration : Exploration) (invariant : exploration.Invariant graph)
    (passed : exploration.Passed goal) (enough : keys.length ≤ exploration.edges.size + bound) :
    (run graph goal bound exploration).Invariant graph ∧
      (run graph goal bound exploration).Passed goal ∧
      (run graph goal bound exploration).Ended goal := by
  induction bound generalizing exploration with
  | zero =>
    have few := invariant.found_le closed
    have nothing : exploration.pending? = none := Array.getElem?_eq_none (by omega)
    refine ⟨invariant, passed, fun discovery due => ?_⟩
    rw [run, nothing] at due
    contradiction
  | succ bound ih =>
    rw [run]
    split
    · next nothing =>
      refine ⟨invariant, passed, fun discovery due => ?_⟩
      rw [nothing] at due
      contradiction
    · next discovery due =>
      split
      · next reached =>
        refine ⟨invariant, passed, fun other also => ?_⟩
        obtain rfl := Option.some.inj (due.symm.trans also)
        exact reached
      · next plain =>
        have other : goal discovery.key = false := by simpa using plain
        have grown := invariant.expand_size ordered due
        exact ih _ (invariant.expand ordered due) (passed.expand invariant ordered due other)
          (by omega)

/-! ### What an exploration has found -/

section Rows

variable {found : Array Discovery} {trail : List Char} {edges : List (Char × Key)}
  {row : List (Char × Nat)}

theorem Row.lookup (known : Row found trail edges row) (c : Char) :
    (edges.lookup c = none ∧ row.lookup c = none) ∨
      ∃ number target, row.lookup c = some number ∧ edges.lookup c = some target.key ∧
        found[number]? = some target ∧ NotAfter target.word (trail.reverse ++ [c]) := by
  induction known with
  | nil => exact .inl ⟨rfl, rfl⟩
  | @cons edge entry edges row first _ ih =>
    obtain ⟨label, target, met, key, least⟩ := first
    rw [List.lookup_cons, List.lookup_cons, ← label]
    by_cases same : c = edge.1
    · subst same
      exact .inr ⟨entry.2, target, by simp, by simp [key], met, least⟩
    · have other : (c == edge.1) = false := beq_eq_false_iff_ne.mpr same
      rw [other]
      exact ih

theorem Row.ordered (known : Row found trail edges row)
    (ordered : edges.Pairwise fun first second => first.1 < second.1) :
    row.Pairwise fun first second => first.1 < second.1 := by
  have labels : edges.map Prod.fst = row.map Prod.fst := by
    induction known with
    | nil => rfl
    | cons first _ ih => rw [List.map_cons, List.map_cons, first.1, ih ordered.of_cons]
  rw [← List.pairwise_map] at ordered ⊢
  rwa [← labels]

theorem Row.target_lt (known : Row found trail edges row) :
    ∀ entry, entry ∈ row → entry.2 < found.size := by
  induction known with
  | nil => simp
  | cons first _ ih =>
    obtain ⟨-, target, met, -⟩ := first
    rintro other (_ | ⟨_, later⟩)
    · exact (Array.getElem?_eq_some_iff.mp met).1
    · exact ih other later

end Rows

theorem Invariant.row (invariant : exploration.Invariant graph) {number : Nat}
    (met : exploration.found[number]? = some discovery) (below : number < exploration.edges.size) :
    ∃ row, exploration.edges[number]? = some row ∧
      Row exploration.found discovery.trail (graph.next discovery.key) row :=
  ⟨_, Array.getElem?_eq_getElem below,
    invariant.rows number _ _ met (Array.getElem?_eq_getElem below)⟩

theorem Invariant.due_of_le (invariant : exploration.Invariant graph) {number : Nat}
    (met : exploration.found[number]? = some discovery)
    (waiting : exploration.edges.size ≤ number) :
    ∃ next, exploration.pending? = some next ∧ NotAfter next.word discovery.word := by
  rcases Nat.eq_or_lt_of_le waiting with rfl | later
  · exact ⟨discovery, met, .inl rfl⟩
  · have inside := (Array.getElem?_eq_some_iff.mp met).1
    have due := Array.getElem?_eq_getElem (Nat.lt_trans later inside)
    exact ⟨_, due, .inr (invariant.ascending _ _ _ discovery later due met)⟩

/-- A word leads to a key that was found by a word not after it, or it is not before the words that
    the next expansion can find. -/
theorem Invariant.covers (invariant : exploration.Invariant graph) (word : List Char) (key : Key)
    (walked : graph.walk? graph.start word = some key) :
    (∃ (number : Nat) (discovery : Discovery), exploration.found[number]? = some discovery ∧
      discovery.key = key ∧ NotAfter discovery.word word) ∨
    ∃ next c, exploration.pending? = some next ∧ NotAfter (next.word ++ [c]) word := by
  induction word using List.reverseRecOn generalizing key with
  | nil =>
    obtain rfl := Option.some.inj walked
    exact .inl ⟨0, _, invariant.start, rfl, .inl rfl⟩
  | append_singleton word c ih =>
    rw [Graph.walk?_concat] at walked
    obtain ⟨middle, before, step⟩ := Option.bind_eq_some_iff.mp walked
    rcases ih middle before with ⟨number, discovery, met, rfl, least⟩ | ⟨next, d, due, least⟩
    · -- An expanded key has a row with the target, and from one that waits the walk goes past the
      -- next key.
      rcases Nat.lt_or_ge number exploration.edges.size with below | waiting
      · obtain ⟨row, _, known⟩ := invariant.row met below
        rcases known.lookup c with ⟨nothing, -⟩ | ⟨place, target, _, edge, found, early⟩
        · exact absurd (nothing.symm.trans step) (by simp)
        · obtain rfl := Option.some.inj (edge.symm.trans step)
          exact .inl ⟨place, target, found, rfl, early.trans (least.concat c)⟩
      · obtain ⟨next, due, early⟩ := invariant.due_of_le met waiting
        exact .inr ⟨next, c, due, (early.trans least).concat c⟩
    · exact .inr ⟨next, d, due, least.trans (notAfter_append word [c])⟩

private theorem Invariant.not_goal (invariant : exploration.Invariant graph)
    (passed : exploration.Passed goal) (nothing : exploration.pending? = none)
    {word : List Char} {key : Key} (walked : graph.walk? graph.start word = some key) :
    goal key = false := by
  rcases invariant.covers word key walked with ⟨number, discovery, met, rfl, -⟩ | ⟨next, _, due, -⟩
  · have inside := (Array.getElem?_eq_some_iff.mp met).1
    have spent := Array.getElem?_eq_none_iff.mp nothing
    exact passed number discovery (by omega) met
  · rw [nothing] at due
    contradiction

/-- No word that leads to a goal comes before that of the key to expand next. -/
private theorem Invariant.notAfter_goal (invariant : exploration.Invariant graph)
    (passed : exploration.Passed goal) {next : Discovery}
    (due : exploration.pending? = some next) {word : List Char} {key : Key}
    (walked : graph.walk? graph.start word = some key) (reached : goal key = true) :
    NotAfter next.word word := by
  rcases invariant.covers word key walked with
    ⟨number, discovery, met, rfl, least⟩ | ⟨other, c, also, least⟩
  · rcases Nat.lt_or_ge number exploration.edges.size with below | waiting
    · have plain := passed number discovery below met
      rw [reached] at plain
      contradiction
    · obtain ⟨first, also, early⟩ := invariant.due_of_le met waiting
      obtain rfl := Option.some.inj (due.symm.trans also)
      exact early.trans least
  · obtain rfl := Option.some.inj (due.symm.trans also)
    exact (notAfter_append next.word [c]).trans least

end Exploration

/-! ### From a start to a goal -/

namespace Graph

open Exploration

variable {graph : Graph} {goal : Key → Bool} {keys : List Key} {bound : Nat}

theorem explore_spec (ordered : graph.Ordered) (closed : Universe graph keys)
    (enough : keys.length ≤ bound) :
    (graph.explore goal bound).Invariant graph ∧ (graph.explore goal bound).Passed goal ∧
      (graph.explore goal bound).Ended goal :=
  run_spec ordered closed bound (initial graph) (invariant_initial graph)
    (fun _ _ below => by simp [edges_initial] at below) (by simpa [edges_initial] using enough)

def Leads (graph : Graph) (goal : Key → Bool) (word : List Char) : Prop :=
  ∃ key, graph.walk? graph.start word = some key ∧ goal key = true

/-- The exploration stops at the least word that leads to a goal. -/
theorem isLeast_of_pending (ordered : graph.Ordered) (closed : Universe graph keys)
    (enough : keys.length ≤ bound) {discovery : Discovery}
    (due : (graph.explore goal bound).pending? = some discovery) :
    Word.IsLeast (graph.Leads goal) discovery.word := by
  obtain ⟨invariant, passed, ended⟩ := explore_spec ordered closed enough
  refine ⟨⟨discovery.key, invariant.walks _ _ due, ended discovery due⟩, ?_⟩
  rintro other ⟨key, walked, reached⟩ distinct
  exact (invariant.notAfter_goal passed due walked reached).resolve_left distinct.symm

theorem not_leads_of_pending (ordered : graph.Ordered) (closed : Universe graph keys)
    (enough : keys.length ≤ bound) (nothing : (graph.explore goal bound).pending? = none)
    (word : List Char) : ¬ graph.Leads goal word := by
  obtain ⟨invariant, passed, -⟩ := explore_spec ordered closed enough
  rintro ⟨key, walked, reached⟩
  rw [invariant.not_goal passed nothing walked] at reached
  contradiction

end Graph

end CommonWord
