import CommonWord.Proofs.Reading
import CommonWord.Regex.Language
import CommonWord.Regex.Meaning

/-!
The words of a derivation are those of the tree that is built for it.
-/

namespace CommonWord.Regex

theorem language_plus (regex : Regex) : (plus regex).language = oneOrMore regex.language := by
  ext word
  rw [plus, language, language, Language.mem_mul]
  constructor
  · rintro ⟨first, inside, rest, others, rfl⟩
    obtain ⟨parts, rfl, good⟩ := Language.mem_kstar.mp others
    refine ⟨first :: parts, List.cons_ne_nil first parts, rfl, ?_⟩
    rintro part (_ | ⟨_, member⟩)
    · exact inside
    · exact good part member
  · rintro ⟨parts, some, rfl, good⟩
    cases parts with
    | nil => contradiction
    | cons first parts =>
      refine ⟨first, good first (.head _), parts.flatten, ?_, rfl⟩
      exact Language.join_mem_kstar fun part member => good part (.tail _ member)

theorem language_optional (regex : Regex) :
    (optional regex).language = zeroOrOne regex.language := by
  ext word
  rw [optional, language, language, Language.mem_add, Language.mem_one]
  exact Iff.rfl

theorem nullable_iff (regex : Regex) : regex.nullable = true ↔ [] ∈ regex.language := by
  induction regex with
  | epsilon => simp [nullable, language]
  | char c =>
    have other : [] ∉ (char c).language := fun same =>
      List.cons_ne_nil c [] (Set.mem_singleton_iff.mp same).symm
    exact iff_of_false (by simp [nullable]) other
  | concat l r leftIh rightIh =>
    simp [nullable, language, Language.mem_mul, leftIh, rightIh, and_comm]
  | union l r leftIh rightIh => simp [nullable, language, Language.mem_add, leftIh, rightIh]
  | star x _ => simp [nullable, language, Language.nil_mem_kstar]

private theorem Suffix.repeats {suffix : List Char} {wrap : Regex → Regex}
    (suffixed : Suffix suffix wrap) :
    ∃ often, Repeats suffix often ∧ ∀ regex, (wrap regex).language = often regex.language := by
  cases suffixed with
  | none => exact ⟨id, .once, fun _ => rfl⟩
  | star => exact ⟨_, .zeroOrMore, fun _ => rfl⟩
  | plus => exact ⟨_, .oneOrMore, language_plus⟩
  | optional => exact ⟨_, .zeroOrOne, language_optional⟩

private theorem Repeats.suffix {suffix : List Char} {often : Language Char → Language Char}
    (suffixed : Repeats suffix often) :
    ∃ wrap, Suffix suffix wrap ∧ ∀ regex, (wrap regex).language = often regex.language := by
  cases suffixed with
  | once => exact ⟨id, .none, fun _ => rfl⟩
  | zeroOrMore => exact ⟨_, .star, fun _ => rfl⟩
  | oneOrMore => exact ⟨_, .plus, language_plus⟩
  | zeroOrOne => exact ⟨_, .optional, language_optional⟩

theorem Derives.means {phrase : Phrase} {text : List Char} {regex : Regex}
    (derived : Derives phrase text regex) : Means phrase text regex.language := by
  induction derived with
  | letter low high => exact .letter low high
  | @group inside suffix inner wrap _ suffixed content =>
    obtain ⟨often, repeated, same⟩ := suffixed.repeats
    rw [same inner]
    exact .group content repeated
  | single _ only => exact .single only
  | both _ _ before after => exact .both before after
  | one _ only => exact .one only
  | more _ _ before after => exact .more before after

theorem Means.derives {phrase : Phrase} {text : List Char} {words : Language Char}
    (meaning : Means phrase text words) :
    ∃ regex, Derives phrase text regex ∧ regex.language = words := by
  induction meaning with
  | @letter c low high => exact ⟨char c, .letter low high, rfl⟩
  | group _ suffixed content =>
    obtain ⟨inner, derived, rfl⟩ := content
    obtain ⟨wrap, suffix, same⟩ := suffixed.suffix
    exact ⟨wrap inner, .group derived suffix, same inner⟩
  | single _ only =>
    obtain ⟨regex, derived, rfl⟩ := only
    exact ⟨regex, .single derived, rfl⟩
  | both _ _ before after =>
    obtain ⟨first, left, rfl⟩ := before
    obtain ⟨second, right, rfl⟩ := after
    exact ⟨union first second, .both left right, rfl⟩
  | one _ only =>
    obtain ⟨regex, derived, rfl⟩ := only
    exact ⟨regex, .one derived, rfl⟩
  | more _ _ before after =>
    obtain ⟨first, left, rfl⟩ := before
    obtain ⟨second, right, rfl⟩ := after
    exact ⟨concat first second, .more left right, rfl⟩

/-- The reader accepts the texts that stand for some words, and reads a tree of these words. -/
theorem standsFor_iff {text : List Char} {words : Language Char} :
    StandsFor text words ↔ ∃ regex, parse text = .ok regex ∧ regex.language = words := by
  constructor
  · rintro ⟨meaning, shallow⟩
    obtain ⟨regex, derived, same⟩ := meaning.derives
    exact ⟨regex, Reads.parse_eq ⟨derived, shallow⟩, same⟩
  · rintro ⟨regex, parsed, rfl⟩
    obtain ⟨derived, shallow⟩ := reads_of_parse parsed
    exact ⟨derived.means, shallow⟩

theorem StandsFor.unique {text : List Char} {first second : Language Char}
    (one : StandsFor text first) (two : StandsFor text second) : first = second := by
  obtain ⟨regex, parsed, rfl⟩ := standsFor_iff.mp one
  obtain ⟨other, also, rfl⟩ := standsFor_iff.mp two
  rw [Except.ok.inj (parsed.symm.trans also)]

end CommonWord.Regex
