import PhraseGrammar.Proofs.Reading.Blanks

namespace PhraseGrammar.Reading

open Written

-- A text that neither a name nor a numeral before it goes on with.
def Ended (rest : List Char) : Prop :=
  ∀ character ∈ rest.head?, isNameCharacter character = false

theorem isDigit_of_ended (rest : List Char) (h : Ended rest) :
    ∀ character ∈ rest.head?, character.isDigit = false := by
  intro character hc
  have hname := h character hc
  simp only [isNameCharacter, Char.isAlphanum, Bool.or_eq_false_iff] at hname
  exact hname.1.1.2

theorem ne_point_of_ended (rest : List Char) (h : Ended rest) :
    ∀ character ∈ rest.head?, character ≠ '.' := by
  rintro _ hpoint rfl
  exact absurd (h '.' hpoint) (by decide)

theorem ended_cons (character : Char) (rest : List Char) (h : isNameCharacter character = false) :
    Ended (character :: rest) := by
  rintro _ ⟨⟩
  exact h

theorem ended_gapText {newlines : Bool} (gap : List (Blank newlines)) (rest : List Char)
    (h : gap ≠ [] ∨ Ended rest) : Ended (gapText gap ++ rest) := by
  cases gap with
  | nil => exact h.resolve_left (fun hne => hne rfl)
  | cons blank gap =>
      rw [gapText, List.flatMap_cons, List.append_assoc]
      cases blank <;> exact ended_cons _ _ (by decide)

theorem ne_of_isNameCharacter (character other : Char) (h : isNameCharacter character)
    (hother : isNameCharacter other = false) : character ≠ other := by
  rintro rfl
  simp [h] at hother

theorem solid_nameCharacter (newlines : Bool) (character : Char) (rest : List Char)
    (h : isNameCharacter character) : Solid newlines (character :: rest) := by
  refine solid_cons newlines character rest ⟨isSpace_eq_false _ ?_ ?_, ?_, ?_⟩ <;>
    exact ne_of_isNameCharacter character _ h (by decide)

theorem exists_numeralText (numeral : Numeral) :
    ∃ character more, numeral.text = character :: more ∧ isNameCharacter character := by
  obtain ⟨whole, fraction, hwhole, hfraction, hne⟩ := numeral
  cases whole with
  | cons digit whole =>
      have hdigit : isNameCharacter digit := by
        have := hwhole digit List.mem_cons_self
        simp [isNameCharacter, Char.isAlphanum, this]
      exact ⟨digit, _, rfl, hdigit⟩
  | nil =>
      cases fraction with
      | none => exact absurd rfl hne
      | some digits => exact ⟨'.', digits, rfl, by decide⟩

theorem solid_weightText {newlines : Bool} (weight : Option (Numeral × List (Blank newlines)))
    (rest : List Char) (hrest : Solid newlines rest) :
    Solid newlines (weightText weight ++ rest) := by
  cases weight with
  | none => exact hrest
  | some weight =>
      obtain ⟨numeral, gap⟩ := weight
      obtain ⟨character, more, he, hcharacter⟩ := exists_numeralText numeral
      rw [weightText, he, List.cons_append, List.cons_append]
      exact solid_nameCharacter newlines character _ hcharacter

theorem reads_readName (name : Name) (input : List Char) (hinput : Ended input) :
    Reads readName (name.characters ++ input) name.name input := by
  refine reads_bind (reads_readWhile isNameCharacter _ _ name.hcharacters hinput) ?_
  have hne : name.characters.isEmpty = false := by simpa using name.hne
  simp only [hne]
  exact reads_pure _ _

section Numerals

variable {ω : Type} [Weight ω]

theorem readNumeral?_text (numeral : Numeral) :
    Decimal.readNumeral? numeral.text =
      some (Decimal.digitsValue (numeral.whole ++ numeral.fraction.getD []),
        (numeral.fraction.getD []).length) := by
  obtain ⟨whole, fraction, hwhole, hfraction, hne⟩ := numeral
  cases fraction with
  | none =>
      have htake := takeWhile_append Char.isDigit whole [] hwhole (by simp)
      have hdrop : (whole ++ []).dropWhile Char.isDigit = [] := List.dropWhile_append_of_pos hwhole
      simp only [List.append_nil, Option.getD_none] at htake hdrop hne
      simp [Decimal.readNumeral?, Numeral.text, htake, hdrop, hne]
  | some digits =>
      have htake := takeWhile_append Char.isDigit whole ('.' :: digits) hwhole (by simp)
      have hdrop : (whole ++ '.' :: digits).dropWhile Char.isDigit = '.' :: digits := by
        rw [List.dropWhile_append_of_pos hwhole]
        rfl
      simp only [Option.getD_some] at hfraction hne
      have hall : digits.all Char.isDigit = true := List.all_eq_true.mpr hfraction
      have hsome : (whole.isEmpty && digits.isEmpty) = false := by
        cases whole <;> cases digits <;> simp_all
      simp [Decimal.readNumeral?, Numeral.text, htake, hdrop, hall, hsome]

theorem readNumeral_text (numeral : Numeral) (cursor : Cursor) :
    readNumeral numeral.text cursor =
      .ok ((numeral.value : ω), cursor.forward numeral.text.length) := by
  rw [readNumeral, bind_of_ok (show skip numeral.text.length cursor = .ok ((), _) from rfl),
    readNumeral?_text]
  rfl

-- A text that the numeral before it does not go on with.
def EndsNumeral (numeral : Numeral) (rest : List Char) : Prop :=
  ∀ character ∈ rest.head?,
    character.isDigit = false ∧ (numeral.fraction = none → character ≠ '.')

theorem endsNumeral_of_ended (numeral : Numeral) (rest : List Char) (h : Ended rest) :
    EndsNumeral numeral rest := fun character hcharacter =>
  ⟨isDigit_of_ended rest h character hcharacter,
    fun _ => ne_point_of_ended rest h character hcharacter⟩

theorem readWeight_text (numeral : Numeral) (rest : List Char) (h : EndsNumeral numeral rest)
    (position : Position) :
    readWeight ⟨numeral.text ++ rest, position⟩ =
      .ok (some (numeral.value : ω),
        Cursor.forward numeral.text.length ⟨numeral.text ++ rest, position⟩) := by
  have hnumeral := readNumeral_text (ω := ω) numeral ⟨numeral.text ++ rest, position⟩
  have hdigit : ∀ character ∈ rest.head?, character.isDigit = false :=
    fun character hcharacter => (h character hcharacter).1
  obtain ⟨whole, fraction, hwhole, hfraction, hne⟩ := numeral
  cases fraction with
  | none =>
      simp only [Numeral.text, List.append_nil, Option.getD_none] at hnumeral hne ⊢
      have hpoint' : ((whole ++ rest).drop whole.length).head? ≠ some '.' := by
        rw [List.drop_left]
        exact fun hpoint => (h '.' hpoint).2 rfl rfl
      rw [readWeight_of_no_point _ (takeWhile_append Char.isDigit whole rest hwhole hdigit) hpoint',
        if_neg hne, bind_of_ok hnumeral]
      rfl
  | some digits =>
      simp only [Numeral.text, Option.getD_some, List.append_assoc, List.cons_append]
        at hnumeral hne hfraction ⊢
      have hdigits := takeWhile_append Char.isDigit digits rest hfraction hdigit
      have hsome : ¬ (whole = [] ∧ (digits ++ rest).takeWhile Char.isDigit = []) := by
        rintro ⟨rfl, hnone⟩
        exact hne (hdigits.symm.trans hnone)
      rw [readWeight_of_point _ (digits ++ rest)
        (takeWhile_append Char.isDigit whole _ hwhole (by simp)) List.drop_left, if_neg hsome,
        hdigits, bind_of_ok hnumeral]
      rfl

theorem reads_readWeight (numeral : Numeral) (input : List Char) (hinput : Ended input) :
    Reads readWeight (numeral.text ++ input) (some (numeral.value : ω)) input :=
  reads_of_forward _ _ _ (readWeight_text numeral input (endsNumeral_of_ended numeral input hinput))

theorem readWeight_none (cursor : Cursor)
    (h : ∀ character ∈ cursor.rest.head?, character.isDigit = false ∧ character ≠ '.') :
    readWeight cursor = .ok ((none : Option ω), cursor) := by
  have hwhole := takeWhile_append Char.isDigit [] cursor.rest nofun fun character hcharacter =>
    (h character hcharacter).1
  rw [List.nil_append] at hwhole
  have hpoint : (cursor.rest.drop ([] : List Char).length).head? ≠ some '.' := fun hpoint =>
    (h '.' hpoint).2 rfl
  rw [readWeight_of_no_point cursor hwhole hpoint, if_pos rfl]
  rfl

theorem reads_readWeight_none (input : List Char) (hinput : Ended input) :
    Reads readWeight input (none : Option ω) input := by
  refine fun position => ⟨position, readWeight_none _ fun character hcharacter => ?_⟩
  exact ⟨isDigit_of_ended input hinput character hcharacter,
    ne_point_of_ended input hinput character hcharacter⟩

-- The gap that is left after a weight, nothing if there is no weight.
def gapLeft {newlines : Bool} : Option (Numeral × List (Blank newlines)) → List (Blank newlines)
  | none => []
  | some (_, gap) => gap

theorem reads_weight {newlines : Bool} (weight : Option (Numeral × List (Blank newlines)))
    (input : List Char) (hinput : Ended input) :
    Reads readWeight (weightText weight ++ input) (weightValue weight : Option ω)
      (gapText (gapLeft weight) ++ input) := by
  cases weight with
  | none => exact reads_readWeight_none input hinput
  | some weight =>
      obtain ⟨numeral, after⟩ := weight
      rw [weightText, List.append_assoc]
      exact reads_readWeight numeral _ (ended_gapText after input (.inr hinput))

end Numerals

theorem reads_readOperator (equalized : Bool) (input : List Char) :
    Reads readOperator (sign equalized ++ input) equalized input := by
  refine reads_bind (reads_remaining _) ?_
  cases equalized with
  | false => exact reads_bind (reads_skip 1 _) (reads_pure _ _)
  | true => exact reads_bind (reads_skip 2 _) (reads_pure _ _)

end PhraseGrammar.Reading
