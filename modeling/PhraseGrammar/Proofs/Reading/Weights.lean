import PhraseGrammar.Proofs.Reading.Lexemes

namespace PhraseGrammar.Reading

open Written

theorem exists_run (property : Char → Bool) (text : List Char) :
    ∃ run rest, text = run ++ rest ∧ (∀ character ∈ run, property character) ∧
      ∀ character ∈ rest.head?, property character = false := by
  induction text with
  | nil => exact ⟨[], [], rfl, nofun, nofun⟩
  | cons character text ih =>
      by_cases h : property character = true
      · obtain ⟨run, rest, rfl, hrun, hrest⟩ := ih
        exact ⟨character :: run, rest, rfl, List.forall_mem_cons.mpr ⟨h, hrun⟩, hrest⟩
      · refine ⟨[], character :: text, rfl, nofun, ?_⟩
        rintro _ ⟨⟩
        exact Bool.eq_false_iff.mpr h

section Numerals

theorem isDigit_or_point_of_mem (numeral : Numeral) :
    ∀ character ∈ numeral.text, character.isDigit ∨ character = '.' := by
  obtain ⟨whole, fraction, hwhole, hfraction, hne⟩ := numeral
  intro character hcharacter
  rcases List.mem_append.mp hcharacter with hw | hf
  · exact .inl (hwhole character hw)
  · cases fraction with
    | none => exact absurd hf (List.not_mem_nil)
    | some digits =>
        rcases List.mem_cons.mp hf with hpoint | hdigit
        · exact .inr hpoint
        · exact .inl (hfraction character hdigit)

theorem count_point_of_digits (digits : List Char) (h : ∀ character ∈ digits, character.isDigit) :
    digits.count '.' = 0 :=
  List.count_eq_zero.mpr fun hpoint => absurd (h '.' hpoint) (by decide)

theorem count_point_text (numeral : Numeral) :
    numeral.text.count '.' = if numeral.fraction = none then 0 else 1 := by
  obtain ⟨whole, fraction, hwhole, hfraction, hne⟩ := numeral
  cases fraction with
  | none => simp [Numeral.text, count_point_of_digits whole hwhole]
  | some digits =>
      simp [Numeral.text, count_point_of_digits whole hwhole,
        count_point_of_digits digits hfraction]

-- A numeral at the front of a text that every other one there is a part of.
structure Longest (numeral : Numeral) (text : List Char) : Prop where
  isPrefix : numeral.text <+: text
  longest (other : Numeral) (h : other.text <+: text) : other.text <+: numeral.text

-- One more character could only be a point, and a numeral has no second one.
theorem longest_of_endsNumeral (numeral : Numeral) (rest : List Char)
    (h : EndsNumeral numeral rest) : Longest numeral (numeral.text ++ rest) := by
  refine ⟨List.prefix_append _ _, fun other hother => ?_⟩
  rcases List.prefix_or_prefix_of_prefix hother (List.prefix_append _ _) with hshort | hlong
  · exact hshort
  · obtain ⟨more, hmore⟩ := hlong
    rw [← hmore, List.prefix_append_right_inj] at hother
    cases more with
    | nil =>
        rw [List.append_nil] at hmore
        exact hmore ▸ List.prefix_rfl
    | cons character more =>
        obtain ⟨after, rfl⟩ := hother
        obtain ⟨hdigit, hpoint⟩ := h character rfl
        have hmem : character ∈ other.text := hmore ▸ by simp
        obtain rfl : character = '.' :=
          (isDigit_or_point_of_mem other character hmem).resolve_left (by simp [hdigit])
        have hcount := congrArg (List.count '.') hmore
        have hfraction : numeral.fraction ≠ none := fun hnone => hpoint hnone rfl
        rw [List.count_append, List.count_cons_self, count_point_text, if_neg hfraction,
          count_point_text] at hcount
        split at hcount <;> omega

-- A text that starts with a digit, or with a point and a digit.
def OpensNumeral (text : List Char) : Prop :=
  (∃ character ∈ text.head?, character.isDigit) ∨
    ∃ more, text = '.' :: more ∧ ∃ character ∈ more.head?, character.isDigit

theorem exists_numeral (text : List Char) (h : OpensNumeral text) :
    ∃ (numeral : Numeral) (rest : List Char),
      text = numeral.text ++ rest ∧ EndsNumeral numeral rest := by
  obtain ⟨whole, rest, rfl, hwhole, hrest⟩ := exists_run Char.isDigit text
  by_cases hpoint : rest.head? = some '.'
  · obtain ⟨more, rfl⟩ := List.head?_eq_some_iff.mp hpoint
    obtain ⟨digits, rest, rfl, hdigits, hafter⟩ := exists_run Char.isDigit more
    have hne : whole ++ digits ≠ [] := by
      intro hempty
      obtain ⟨rfl, rfl⟩ := List.append_eq_nil_iff.mp hempty
      rcases h with ⟨character, hhead, hdigit⟩ | ⟨_, hmore, character, hhead, hdigit⟩
      · cases hhead
        exact absurd hdigit (by decide)
      · cases hmore
        rw [hafter character hhead] at hdigit
        exact absurd hdigit Bool.false_ne_true
    refine ⟨⟨whole, some digits, hwhole, hdigits, hne⟩, rest, by simp [Numeral.text], ?_⟩
    exact fun character hcharacter =>
      ⟨hafter character hcharacter, fun hnone => absurd hnone (Option.some_ne_none digits)⟩
  · have hne : whole ++ [] ≠ [] := by
      intro hempty
      obtain rfl : whole = [] := by simpa using hempty
      rcases h with ⟨character, hhead, hdigit⟩ | ⟨more, hmore, _⟩
      · rw [hrest character hhead] at hdigit
        exact absurd hdigit Bool.false_ne_true
      · exact hpoint (by rw [← List.nil_append rest, hmore]; rfl)
    refine ⟨⟨whole, none, hwhole, List.forall_mem_nil _, hne⟩, rest, by simp [Numeral.text], ?_⟩
    intro character hcharacter
    exact ⟨hrest character hcharacter, fun _ he => hpoint (he ▸ hcharacter)⟩

theorem isSome_readNumeral?_iff (text : List Char) :
    (Decimal.readNumeral? text).isSome ↔ ∃ numeral : Numeral, numeral.text = text := by
  constructor
  · intro hsome
    obtain ⟨whole, rest, rfl, hwhole, hrest⟩ := exists_run Char.isDigit text
    have htake := takeWhile_append Char.isDigit whole rest hwhole hrest
    have hdrop : (whole ++ rest).dropWhile Char.isDigit = rest := by
      rw [List.dropWhile_append_of_pos hwhole]
      cases rest with
      | nil => rfl
      | cons character rest => rw [List.dropWhile_cons_of_neg (by simp [hrest character rfl])]
    simp only [Decimal.readNumeral?, htake, hdrop] at hsome
    split at hsome
    · refine ⟨⟨whole, none, hwhole, List.forall_mem_nil _, ?_⟩, rfl⟩
      simpa using hsome
    · rename_i digits
      simp only [Option.isSome_ite, Bool.and_eq_true, Bool.not_eq_true', Bool.and_eq_false_iff,
        List.isEmpty_eq_false_iff] at hsome
      refine ⟨⟨whole, some digits, hwhole, List.all_eq_true.mp hsome.1, fun hempty => ?_⟩, rfl⟩
      obtain ⟨hleft, hright⟩ := List.append_eq_nil_iff.mp hempty
      exact hsome.2.elim (· hleft) (· hright)
    · exact absurd hsome Bool.false_ne_true
  · rintro ⟨numeral, rfl⟩
    rw [readNumeral?_text]
    rfl

end Numerals

variable {ω : Type} [Weight ω]

theorem readWeight_bare_point (cursor : Cursor) (more : List Char)
    (hrest : cursor.rest = '.' :: more)
    (h : ∀ character ∈ more.head?, character.isDigit = false) :
    (readWeight cursor : Except Failure (Option ω × Cursor)) =
      .error ⟨.digitExpected, cursor.forward 1⟩ := by
  have hdigits := takeWhile_append Char.isDigit [] more nofun h
  rw [List.nil_append] at hdigits
  have hwhole : cursor.rest.takeWhile Char.isDigit = [] := by
    rw [hrest]
    rfl
  rw [readWeight_of_point cursor more hwhole hrest, if_pos ⟨rfl, hdigits⟩]
  rfl

-- How the weight at a cursor is read: nothing where none starts, a failure
-- after a point alone, and the longest numeral otherwise.
structure ReadsLongest (ω : Type) [Weight ω] (cursor : Cursor) : Prop where
  nothing (h : ∀ character ∈ cursor.rest.head?, character.isDigit = false ∧ character ≠ '.') :
    readWeight cursor = .ok ((none : Option ω), cursor)
  point (more : List Char) (hrest : cursor.rest = '.' :: more)
    (h : ∀ character ∈ more.head?, character.isDigit = false) :
    (readWeight cursor : Except Failure (Option ω × Cursor)) =
      .error ⟨.digitExpected, cursor.forward 1⟩
  numeral (h : OpensNumeral cursor.rest) : ∃ numeral : Numeral, Longest numeral cursor.rest ∧
    readWeight cursor = .ok (some (numeral.value : ω), cursor.forward numeral.text.length)

theorem readsLongest_readWeight (cursor : Cursor) : ReadsLongest ω cursor := by
  refine ⟨readWeight_none cursor, readWeight_bare_point cursor, fun h => ?_⟩
  obtain ⟨text, position⟩ := cursor
  obtain ⟨numeral, rest, rfl, hends⟩ := exists_numeral text h
  exact ⟨numeral, longest_of_endsNumeral numeral rest hends,
    readWeight_text numeral rest hends position⟩

theorem opensNumeral_cases (text : List Char) :
    (∀ character ∈ text.head?, character.isDigit = false ∧ character ≠ '.') ∨
      (∃ more, text = '.' :: more ∧ ∀ character ∈ more.head?, character.isDigit = false) ∨
      OpensNumeral text := by
  cases text with
  | nil => exact .inl nofun
  | cons character more =>
      by_cases hdigit : character.isDigit = true
      · exact .inr (.inr (.inl ⟨character, rfl, hdigit⟩))
      · by_cases hpoint : character = '.'
        · subst hpoint
          by_cases hmore : ∃ character ∈ more.head?, character.isDigit
          · exact .inr (.inr (.inr ⟨more, rfl, hmore⟩))
          · refine .inr (.inl ⟨more, rfl, fun character hcharacter => ?_⟩)
            exact Bool.eq_false_iff.mpr fun hd => hmore ⟨character, hcharacter, hd⟩
        · refine .inl ?_
          rintro _ ⟨⟩
          exact ⟨Bool.eq_false_iff.mpr hdigit, hpoint⟩

-- A numeral that has been taken is a number, so nothing fails but a point
-- without a digit.
theorem readWeight_error (cursor : Cursor) (failure : Failure)
    (h : (readWeight cursor : Except Failure (Option ω × Cursor)) = .error failure) :
    failure = ⟨.digitExpected, cursor.forward 1⟩ := by
  have hread := readsLongest_readWeight (ω := ω) cursor
  rcases opensNumeral_cases cursor.rest with hnothing | ⟨more, hrest, hmore⟩ | hopens
  · rw [hread.nothing hnothing] at h
    exact nomatch h
  · rw [hread.point more hrest hmore] at h
    exact (Except.error.inj h).symm
  · obtain ⟨numeral, _, hnumeral⟩ := hread.numeral hopens
    rw [hnumeral] at h
    exact nomatch h

end PhraseGrammar.Reading
