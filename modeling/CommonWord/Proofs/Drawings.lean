import CommonWord.Dfa.Subset
import CommonWord.Drawing
import CommonWord.Proofs.Rows
import CommonWord.Proofs.Shapes

/-!
A drawing loses nothing of the automaton that it was made from.

Every line can be told from what follows it: a name ends where its digits do, and a label is one
character, whichever it is. The statements fall into blocks, one for each state. In the block of a
state one edge with the label of empty moves may be an empty move or a letter, but an empty move out
of a state that does not accept and has no other leads onward, and the edge of a letter leads back.
-/

namespace CommonWord

/-- A list can be split in one way only into a front whose elements have a property and a rest that
    begins without it. -/
private theorem split_unique {α : Type} {property : α → Bool} {front other rest tail : List α}
    (all : ∀ x, x ∈ front → property x = true) (also : ∀ x, x ∈ other → property x = true)
    (ends : ∀ x, rest.head? = some x → property x = false)
    (stops : ∀ x, tail.head? = some x → property x = false)
    (same : front ++ rest = other ++ tail) : front = other ∧ rest = tail := by
  obtain rfl : rest = tail :=
    calc
      rest = (front ++ rest).dropWhile property := (Text.dropWhile_margin all ends).symm
      _ = (other ++ tail).dropWhile property := by rw [same]
      _ = tail := Text.dropWhile_margin also stops
  exact ⟨List.append_cancel_right same, rfl⟩

namespace Statement

/-! ### Lines -/

/-- The text does not begin with a digit. -/
def NoDigit (text : List Char) : Prop := ∀ c, text.head? = some c → c.isDigit = false

private theorem noDigit_cons {c : Char} (other : c.isDigit = false) (text : List Char) :
    NoDigit (c :: text) := by
  rintro _ ⟨⟩
  exact other

theorem toDigits_injective {number other : Nat}
    (same : Nat.toDigits 10 number = Nat.toDigits 10 other) : number = other :=
  calc
    number = Nat.ofDigitChars 10 (Nat.toDigits 10 number) 0 := Nat.ofDigitChars_ten_toDigits.symm
    _ = Nat.ofDigitChars 10 (Nat.toDigits 10 other) 0 := by rw [same]
    _ = other := Nat.ofDigitChars_ten_toDigits

private theorem stateName_append_inj {number other : Nat} {rest tail : List Char}
    (ends : NoDigit rest)
    (stops : NoDigit tail) (same : stateName number ++ rest = stateName other ++ tail) :
    number = other ∧ rest = tail := by
  have digits : ∀ {n : Nat} (c : Char), c ∈ Nat.toDigits 10 n → c.isDigit = true :=
    fun _ => Nat.isDigit_of_mem_toDigits (by decide) (by decide)
  obtain ⟨names, rests⟩ := split_unique digits digits ends stops (List.cons.inj same).2
  exact ⟨toDigits_injective names, rests⟩

/-- The state whose name a statement begins with, if it does not begin with that of the point. -/
def subject : Statement → Option Nat
  | entry => none
  | start _ => none
  | state number _ => some number
  | edge source _ _ => some source

/-- What a statement says after the name that it begins with. -/
def predicate : Statement → List Char
  | entry => "[shape=point]".toList
  | start target => " -> ".toList ++ stateName target
  | state _ accepting => (if accepting then "[shape=doublecircle]" else "[shape=circle]").toList
  | edge _ target label =>
    " -> ".toList ++ stateName target ++ " [label=\"".toList ++ label :: "\"]".toList

def subjectName : Option Nat → List Char
  | none => "entry".toList
  | some number => stateName number

section

variable (source target : Nat) (accepting : Bool) (label : Char)

private theorem predicate_entry : entry.predicate = "[shape=point]".toList := rfl

private theorem predicate_start : (start target).predicate = " -> ".toList ++ stateName target := rfl

private theorem predicate_state : (state source accepting).predicate =
    (if accepting then "[shape=doublecircle]" else "[shape=circle]").toList := rfl

private theorem predicate_edge : (edge source target label).predicate =
    " -> ".toList ++ stateName target ++ " [label=\"".toList ++ label :: "\"]".toList := rfl

end

/-- A statement is the name that it begins with and what it says after it. -/
private theorem render_eq (statement : Statement) :
    statement.render = subjectName statement.subject ++ statement.predicate := by
  cases statement with
  | entry => rfl
  | start target => rfl
  | state number accepting => rfl
  | edge source target label =>
    change stateName source ++ " -> ".toList ++ stateName target ++ " [label=\"".toList ++
      label :: "\"]".toList = stateName source ++ (edge source target label).predicate
    simp only [predicate_edge, List.append_assoc]

private theorem line_append (statement : Statement) (rest : List Char) :
    Drawing.line statement ++ rest =
      ' ' :: ' ' :: (subjectName statement.subject ++ (statement.predicate ++ '\n' :: rest)) := by
  simp [Drawing.line, render_eq]

private theorem noDigit_predicate (statement : Statement) (rest : List Char) :
    NoDigit (statement.predicate ++ rest) := by
  cases statement with
  | entry => exact noDigit_cons (c := '[') (by decide) _
  | start target => exact noDigit_cons (c := ' ') (by decide) _
  | state number accepting =>
    cases accepting with
    | false => exact noDigit_cons (c := '[') (by decide) _
    | true => exact noDigit_cons (c := '[') (by decide) _
  | edge source target label => exact noDigit_cons (c := ' ') (by decide) _

private theorem subjectName_append_inj {subject other : Option Nat} {rest tail : List Char}
    (ends : NoDigit rest) (stops : NoDigit tail)
    (same : subjectName subject ++ rest = subjectName other ++ tail) :
    subject = other ∧ rest = tail := by
  cases subject with
  | none =>
    cases other with
    | none => exact ⟨rfl, List.append_cancel_left same⟩
    | some number => simp [subjectName, stateName] at same
  | some number =>
    cases other with
    | none => simp [subjectName, stateName] at same
    | some also =>
      obtain ⟨rfl, rests⟩ := stateName_append_inj ends stops same
      exact ⟨rfl, rests⟩

/-- What follows one and the same name tells the statement, and where its line ends. -/
private theorem predicate_append_inj {first second : Statement} {rest tail : List Char}
    (subject : first.subject = second.subject)
    (same : first.predicate ++ '\n' :: rest = second.predicate ++ '\n' :: tail) :
    first = second ∧ rest = tail := by
  have feed : ∀ text : List Char, NoDigit ('\n' :: text) := noDigit_cons (by decide)
  cases first with
  | entry =>
    cases second with
    | entry => simpa using same
    | start _ => simp [predicate_entry, predicate_start] at same
    | state _ _ => contradiction
    | edge _ _ _ => contradiction
  | start target =>
    cases second with
    | start next =>
      rw [predicate_start, predicate_start, List.append_assoc, List.append_assoc] at same
      obtain ⟨rfl, rests⟩ := stateName_append_inj (feed rest) (feed tail)
        (List.append_cancel_left same)
      exact ⟨rfl, (List.cons.inj rests).2⟩
    | entry => simp [predicate_entry, predicate_start] at same
    | state _ _ => contradiction
    | edge _ _ _ => contradiction
  | state number accepting =>
    cases second with
    | state other also =>
      obtain rfl := Option.some.inj subject
      cases accepting <;> cases also <;> simp [predicate_state] at same ⊢
      all_goals exact same
    | edge _ _ _ =>
      cases accepting <;> simp [predicate_state, predicate_edge] at same
    | entry => contradiction
    | start _ => contradiction
  | edge source target label =>
    cases second with
    | edge other next letter =>
      obtain rfl := Option.some.inj subject
      simp only [predicate_edge, List.append_assoc] at same
      have ends : ∀ text, NoDigit (" [label=\"".toList ++ text) := noDigit_cons (by decide)
      obtain ⟨rfl, rests⟩ := stateName_append_inj (ends _) (ends _) (List.append_cancel_left same)
      -- The label is one character, so what follows it starts at one place even if it is a quote.
      simpa using List.append_cancel_left rests
    | state _ also =>
      cases also <;> simp [predicate_state, predicate_edge] at same
    | entry => contradiction
    | start _ => contradiction

private theorem line_append_inj {first second : Statement} {rest tail : List Char}
    (same : Drawing.line first ++ rest = Drawing.line second ++ tail) :
    first = second ∧ rest = tail := by
  rw [line_append, line_append] at same
  obtain ⟨subject, predicates⟩ := subjectName_append_inj (noDigit_predicate _ _)
    (noDigit_predicate _ _) (List.cons.inj (List.cons.inj same).2).2
  exact predicate_append_inj subject predicates

/-! ### Blocks -/

/-- The statement stands for a step from one state to another. -/
def isEdge : Statement → Bool
  | edge _ _ _ => true
  | _ => false

/-- Statements for one state: whether it accepts, and then its edges. -/
inductive Block : List Statement → Prop where
  | state (number : Nat) (accepting : Bool) {edges : List Statement}
    (only : ∀ statement, statement ∈ edges → isEdge statement = true) :
    Block (.state number accepting :: edges)

/-- What follows the edges of a state is no edge. -/
private theorem Block.ends {blocks : List (List Statement)}
    (all : ∀ block, block ∈ blocks → Block block) :
    ∀ statement, blocks.flatten.head? = some statement → isEdge statement = false := by
  cases blocks with
  | nil => simp
  | cons block blocks =>
    cases all block (List.mem_cons_self ..) with
    | state number accepting only =>
      rintro _ ⟨⟩
      rfl

/-- Statements fall into blocks in one way. -/
theorem Block.flatten_inj {blocks others : List (List Statement)}
    (all : ∀ block, block ∈ blocks → Block block) (also : ∀ block, block ∈ others → Block block)
    (same : blocks.flatten = others.flatten) : blocks = others := by
  induction blocks generalizing others with
  | nil =>
    cases others with
    | nil => rfl
    | cons other others =>
      cases also other (List.mem_cons_self ..) with
      | state => simp at same
  | cons block blocks ih =>
    cases others with
    | nil =>
      cases all block (List.mem_cons_self ..) with
      | state => simp at same
    | cons other others =>
      rw [List.forall_mem_cons] at all also
      cases all.1 with
      | state number accepting only =>
        cases also.1 with
        | state _ _ too =>
          obtain ⟨head, edges⟩ := List.cons.inj same
          obtain ⟨rfl, rests⟩ := split_unique only too (Block.ends all.2) (Block.ends also.2) edges
          rw [head, ih all.2 also.2 rests]

end Statement

namespace Drawing

/-- The text tells the statements. -/
theorem statements_inj {first second : List Statement}
    (same : first.flatMap line ++ ['}'] = second.flatMap line ++ ['}']) : first = second := by
  induction first generalizing second with
  | nil =>
    cases second with
    | nil => rfl
    | cons => simp [line] at same
  | cons statement first ih =>
    cases second with
    | nil => simp [line] at same
    | cons other second =>
      rw [List.flatMap_cons, List.flatMap_cons, List.append_assoc, List.append_assoc] at same
      obtain ⟨rfl, rests⟩ := Statement.line_append_inj same
      rw [ih rests]

theorem render_inj {name : List Char} {first second : List Statement}
    (same : render ⟨name, first⟩ = render ⟨name, second⟩) : first = second := by
  have header : ∀ statements, render ⟨name, statements⟩ =
      "digraph ".toList ++ (name ++ ([' ', '{', '\n'] ++ (statements.flatMap line ++ ['}']))) := by
    intro statements
    change "digraph ".toList ++ name ++ [' ', '{', '\n'] ++ statements.flatMap line ++ ['}'] = _
    simp only [List.append_assoc]
  rw [header, header] at same
  exact statements_inj (List.append_cancel_left (List.append_cancel_left
    (List.append_cancel_left same)))

private theorem ofStates_eq {α : Type} (name : String) (start : Nat) (states : List α)
    (statements : Nat → α → List Statement) : ofStates name start states statements =
      ⟨name.toList, .entry :: .start start :: (states.mapIdx statements).flatten⟩ := by
  rw [List.mapIdx_eq_zipIdx_map, ← List.flatMap_def]
  rfl

/-- The drawing of an automaton tells its start and the statements for each of its states. -/
private theorem render_ofStates_eq_iff {α : Type} {name : String} {start other : Nat}
    {first second : List α} {statements : Nat → α → List Statement}
    (blocks : ∀ number state, Statement.Block (statements number state)) :
    (ofStates name start first statements).render = (ofStates name other second statements).render ↔
      start = other ∧ first.mapIdx statements = second.mapIdx statements := by
  have all : ∀ states : List α, ∀ block, block ∈ states.mapIdx statements →
      Statement.Block block := by
    intro states block member
    obtain ⟨number, _, rfl⟩ := List.mem_mapIdx.mp member
    exact blocks ..
  rw [ofStates_eq, ofStates_eq]
  constructor
  · intro same
    obtain ⟨starts, states⟩ := List.cons.inj (List.cons.inj (render_inj same)).2
    refine ⟨Statement.start.inj starts, ?_⟩
    exact Statement.Block.flatten_inj (all first) (all second) states
  · rintro ⟨rfl, same⟩
    rw [same]

end Drawing

/-! ### States -/

namespace Nfa

private theorem State.block_statements (number : Nat) (state : State) :
    Statement.Block (state.statements number) := by
  refine .state number state.accepting fun statement member => ?_
  rcases List.mem_append.mp member with labelled | moved
  · obtain ⟨_, -, rfl⟩ := List.mem_map.mp labelled
    rfl
  · obtain ⟨_, -, rfl⟩ := List.mem_map.mp moved
    rfl

/-- How the steps out of a state look when its labelled edge can be told from empty moves. -/
structure State.Legible (state : State) (number : Nat) : Prop extends state.Shaped number where
  onward : state.accepting = false → ∀ target, state.moves = [target] → number < target

private theorem lasting_legible : Lasting fun number state => state.Legible number := by
  constructor
  case accept => exact fun number => ⟨lasting_shaped.accept number, by simp⟩
  case letter => exact fun number c => ⟨lasting_shaped.letter number c, by simp⟩
  case union => exact fun number _ _ => ⟨lasting_shaped.union number .., by simp⟩
  case star => exact fun number _ => ⟨lasting_shaped.star number .., by simp⟩
  case redirect =>
    intro number state target legible accepted later
    refine ⟨lasting_shaped.redirect number state target legible.toShaped accepted later, ?_⟩
    rintro - next only
    obtain rfl : target = next := by simpa using congrArg List.getLast? only
    exact later

section

variable {number : Nat} {state other : State} (legible : state.Legible number)
  (also : other.Legible number) (same : state.statements number = other.statements number)

include legible also same

/-- What is drawn of a labelled edge cannot be an empty move of another state. -/
private theorem State.Legible.edge_of_drawn {c : Char} {target : Nat}
    (edge : state.edge = some (c, target)) : other.edge = some (c, target) := by
  obtain ⟨head, edges⟩ := List.cons.inj same
  obtain ⟨-, accepting⟩ := Statement.state.inj head
  obtain ⟨rejects, still, back⟩ := legible.edge c target edge
  rw [edge, still] at edges
  cases step : other.edge with
  | some step =>
    rw [step] at edges
    obtain ⟨drawn, -⟩ := List.cons.inj edges
    obtain ⟨-, rfl, rfl⟩ := Statement.edge.inj drawn
    rfl
  | none =>
    rw [step] at edges
    obtain ⟨next, only, drawn⟩ := List.map_eq_singleton_iff.mp edges.symm
    obtain ⟨-, rfl, -⟩ := Statement.edge.inj drawn
    -- The edge leads to the state before, but the move to a later one.
    have later := also.onward (accepting ▸ rejects) next only
    omega

private theorem State.Legible.eq_of_drawn : state = other := by
  have labelled : state.edge = other.edge := by
    refine Option.ext fun step => ?_
    exact ⟨legible.edge_of_drawn also same, also.edge_of_drawn legible same.symm⟩
  obtain ⟨head, edges⟩ := List.cons.inj same
  obtain ⟨-, accepting⟩ := Statement.state.inj head
  rw [labelled] at edges
  have moves : state.moves = other.moves := by
    refine List.map_injective_iff.mpr ?_ (List.append_cancel_left edges)
    exact fun _ _ drawn => (Statement.edge.inj drawn).2.1
  exact (State.mk.injEq ..).mpr ⟨accepting, labelled, moves⟩

end

theorem legible_ofRegex (regex : Regex) :
    AllStates (fun number state => state.Legible number) (ofRegex regex).states := by
  rw [ofRegex, Fragment.build_eq_ofRegex]
  exact lasting_legible.ofRegex regex fun _ _ place => by simp at place

section

variable {first second : Nfa}
  (legible : AllStates (fun number state => state.Legible number) first.states)
  (also : AllStates (fun number state => state.Legible number) second.states)

include legible also

private theorem state_of_drawn
    (same : first.states.toList.mapIdx State.statements =
      second.states.toList.mapIdx State.statements)
    {number : Nat} {state : State} (place : first.states[number]? = some state) :
    second.states[number]? = some state := by
  have drawn := congrArg (·[number]?) same
  simp only [List.getElem?_mapIdx, Array.getElem?_toList, place, Option.map_some] at drawn
  obtain ⟨other, there, statements⟩ := Option.map_eq_some_iff.mp drawn.symm
  rw [there, (legible number state place).eq_of_drawn (also number other there) statements.symm]

/-- The drawing of a legible automaton tells all of it. -/
theorem render_drawing_eq_iff : first.drawing.render = second.drawing.render ↔ first = second := by
  refine ⟨fun same => ?_, congrArg fun nfa : Nfa => nfa.drawing.render⟩
  obtain ⟨start, states⟩ := (Drawing.render_ofStates_eq_iff State.block_statements).mp same
  refine (Nfa.mk.injEq ..).mpr ⟨Array.ext_getElem? fun number => Option.ext fun state => ?_, start⟩
  exact ⟨state_of_drawn legible also states, state_of_drawn also legible states.symm⟩

/-- A letter can be drawn like an empty move where no expression has it. -/
example : drawing ⟨#[⟨false, some (moveLabel, 0), []⟩], 0⟩ = drawing ⟨#[⟨false, none, [0]⟩], 0⟩ := rfl

end

end Nfa

namespace Dfa

private theorem State.block_statements (number : Nat) (state : State) :
    Statement.Block (state.statements number) := by
  refine .state number state.accepting fun statement member => ?_
  obtain ⟨_, -, rfl⟩ := List.mem_map.mp member
  rfl

private theorem State.statements_eq_iff {number : Nat} {state other : State} :
    state.statements number = other.statements number ↔
      state.accepting = other.accepting ∧ state.edges = other.edges := by
  constructor
  · intro same
    obtain ⟨head, edges⟩ := List.cons.inj same
    obtain ⟨-, accepting⟩ := Statement.state.inj head
    refine ⟨accepting, List.map_injective_iff.mpr ?_ edges⟩
    intro _ _ drawn
    obtain ⟨-, target, label⟩ := Statement.edge.inj drawn
    exact Prod.ext label target
  · rintro ⟨accepting, edges⟩
    rw [State.statements, State.statements, accepting, edges]

/-- The drawing of a deterministic automaton tells all that its runs depend on. -/
theorem render_drawing_eq_iff {first second : Dfa} :
    first.drawing.render = second.drawing.render ↔
      first.start = second.start ∧ first.size = second.size ∧
        ∀ state, first.accepting state = second.accepting state ∧
          first.edges state = second.edges state := by
  rw [drawing, drawing, Drawing.render_ofStates_eq_iff State.block_statements,
    List.ext_getElem_iff]
  simp only [List.length_mapIdx, Array.length_toList, List.getElem_mapIdx, Array.getElem_toList,
    State.statements_eq_iff]
  refine and_congr_right fun _ => and_congr_right fun sizes => ⟨fun same state => ?_, ?_⟩
  · rcases Nat.lt_or_ge state first.states.size with inside | outside
    · have also : state < second.states.size := sizes ▸ inside
      simpa [accepting, edges, inside, also] using same state inside also
    · have also : second.states.size ≤ state := sizes ▸ outside
      rw [accepting, accepting, edges, edges, Array.getElem?_eq_none outside,
        Array.getElem?_eq_none also]
      exact ⟨rfl, rfl⟩
  · intro same state inside also
    simpa [accepting, edges, inside, also] using same state

end Dfa

/-- Drawings of the automata of two expressions read the same only if the automata agree, the
    nondeterministic ones in everything and the deterministic ones in all but the members of the
    states. -/
theorem Regex.same_drawings_iff (first second : Regex) :
    ((Nfa.ofRegex first).drawing.render = (Nfa.ofRegex second).drawing.render ↔
      Nfa.ofRegex first = Nfa.ofRegex second) ∧
    ((Dfa.ofNfa (Nfa.ofRegex first)).drawing.render =
        (Dfa.ofNfa (Nfa.ofRegex second)).drawing.render ↔
      (Dfa.ofNfa (Nfa.ofRegex first)).start = (Dfa.ofNfa (Nfa.ofRegex second)).start ∧
      (Dfa.ofNfa (Nfa.ofRegex first)).size = (Dfa.ofNfa (Nfa.ofRegex second)).size ∧
      ∀ state,
        (Dfa.ofNfa (Nfa.ofRegex first)).accepting state =
          (Dfa.ofNfa (Nfa.ofRegex second)).accepting state ∧
        (Dfa.ofNfa (Nfa.ofRegex first)).edges state =
          (Dfa.ofNfa (Nfa.ofRegex second)).edges state) :=
  ⟨Nfa.render_drawing_eq_iff (Nfa.legible_ofRegex first) (Nfa.legible_ofRegex second),
    Dfa.render_drawing_eq_iff⟩

end CommonWord
