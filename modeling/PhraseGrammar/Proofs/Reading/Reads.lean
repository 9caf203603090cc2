import PhraseGrammar.Reading.Grammar

namespace PhraseGrammar.Reading

-- Wherever the input stands, the reader takes the value off its front and
-- leaves the rest.
def Reads {α : Type} (reader : Reader α) (input : List Char) (value : α) (rest : List Char) :
    Prop :=
  ∀ position, ∃ after, reader ⟨input, position⟩ = .ok (value, ⟨rest, after⟩)

variable {α β : Type}

theorem bind_of_ok {first : Reader α} {next : α → Reader β} {cursor left : Cursor} {value : α}
    (h : first cursor = .ok (value, left)) : (first >>= next) cursor = next value left := by
  simp only [bind, StateT.bind, Except.bind, h]

theorem bind_of_error {first : Reader α} {next : α → Reader β} {cursor : Cursor}
    {failure : Failure} (h : first cursor = .error failure) :
    (first >>= next) cursor = .error failure := by
  simp only [bind, StateT.bind, Except.bind, h]

theorem bind_at {first : Reader α} {next : α → Reader β} {cursor other : Cursor}
    (h : first cursor = first other) : (first >>= next) cursor = (first >>= next) other := by
  simp only [bind, StateT.bind, h]

-- A successful reading of two parts, taken apart.
theorem bind_eq_ok {first : Reader α} {next : α → Reader β} {cursor left : Cursor} {result : β}
    (h : (first >>= next) cursor = .ok (result, left)) :
    ∃ value middle, first cursor = .ok (value, middle) ∧
      next value middle = .ok (result, left) := by
  cases hfirst : first cursor with
  | error failure =>
      rw [bind_of_error hfirst] at h
      exact nomatch h
  | ok read =>
      obtain ⟨value, middle⟩ := read
      rw [bind_of_ok hfirst] at h
      exact ⟨value, middle, rfl, h⟩

theorem reads_pure (value : α) (rest : List Char) : Reads (pure value) rest value rest :=
  fun position => ⟨position, rfl⟩

theorem reads_bind {first : Reader α} {next : α → Reader β} {input middle rest : List Char}
    {value : α} {result : β} (hfirst : Reads first input value middle)
    (hnext : Reads (next value) middle result rest) :
    Reads (first >>= next) input result rest := by
  intro position
  obtain ⟨between, hbetween⟩ := hfirst position
  obtain ⟨after, hafter⟩ := hnext between
  exact ⟨after, (bind_of_ok hbetween).trans hafter⟩

theorem reads_remaining (input : List Char) : Reads remaining input input input :=
  fun position => ⟨position, rfl⟩

theorem reads_skip (count : Nat) (input : List Char) :
    Reads (skip count) input () (input.drop count) := by
  intro position
  have hrest := Cursor.rest_forward count ⟨input, position⟩
  rcases hcursor : Cursor.forward count ⟨input, position⟩ with ⟨left, after⟩
  rw [hcursor] at hrest
  subst hrest
  exact ⟨after, by rw [skip, hcursor]⟩

theorem reads_skip_append (text input : List Char) :
    Reads (skip text.length) (text ++ input) () input := by
  have h := reads_skip text.length (text ++ input)
  rwa [List.drop_left] at h

theorem takeWhile_append (property : Char → Bool) (run rest : List Char)
    (hrun : ∀ character ∈ run, property character)
    (hrest : ∀ character ∈ rest.head?, property character = false) :
    (run ++ rest).takeWhile property = run := by
  rw [List.takeWhile_append_of_pos hrun]
  cases rest with
  | nil => simp
  | cons character rest => simp [hrest character rfl]

theorem takeWhile_closed (body rest : List Char) (hbody : '}' ∉ body) :
    (body ++ '}' :: rest).takeWhile (· != '}') = body :=
  takeWhile_append _ body _ (fun _ hmem => bne_iff_ne.mpr fun he => hbody (he ▸ hmem)) (by simp)

theorem reads_readWhile (property : Char → Bool) (run input : List Char)
    (hrun : ∀ character ∈ run, property character)
    (hinput : ∀ character ∈ input.head?, property character = false) :
    Reads (readWhile property) (run ++ input) run input := by
  refine reads_bind (reads_remaining _) ?_
  rw [takeWhile_append property run input hrun hinput]
  exact reads_bind (reads_skip_append run input) (reads_pure run input)

-- What takes a text and moves past it.
theorem reads_of_forward {reader : Reader α} (text input : List Char) (value : α)
    (h : ∀ position, reader ⟨text ++ input, position⟩ =
      .ok (value, Cursor.forward text.length ⟨text ++ input, position⟩)) :
    Reads reader (text ++ input) value input := by
  intro position
  obtain ⟨after, hafter⟩ := reads_skip_append text input position
  rw [skip, Except.ok.injEq, Prod.mk.injEq] at hafter
  exact ⟨after, by rw [h, hafter.2]⟩

section Weights

variable {ω : Type} [Weight ω] (cursor : Cursor) {whole : List Char}

theorem readWeight_of_point (rest : List Char)
    (hwhole : cursor.rest.takeWhile Char.isDigit = whole)
    (hrest : cursor.rest.drop whole.length = '.' :: rest) :
    (readWeight cursor : Except Failure (Option ω × Cursor)) =
      (if whole = [] ∧ rest.takeWhile Char.isDigit = [] then (do skip 1; fail .digitExpected)
        else (do return some (← readNumeral (whole ++ '.' :: rest.takeWhile Char.isDigit)) :
          Reader (Option ω))) cursor := by
  have hfraction : cursor.rest.drop (whole.length + 1) = rest := by
    rw [← List.drop_drop, hrest]
    rfl
  rw [readWeight, bind_of_ok (show remaining cursor = .ok (cursor.rest, cursor) from rfl)]
  simp only [hwhole, hrest, hfraction]
  cases whole with
  | nil => cases rest.takeWhile Char.isDigit <;> rfl
  | cons digit whole => rfl

theorem readWeight_of_no_point (hwhole : cursor.rest.takeWhile Char.isDigit = whole)
    (hrest : (cursor.rest.drop whole.length).head? ≠ some '.') :
    (readWeight cursor : Except Failure (Option ω × Cursor)) =
      (if whole = [] then return none
        else (do return some (← readNumeral whole) : Reader (Option ω))) cursor := by
  rw [readWeight, bind_of_ok (show remaining cursor = .ok (cursor.rest, cursor) from rfl)]
  simp only [hwhole]
  generalize cursor.rest.drop whole.length = rest at hrest
  refine congrFun ?_ cursor
  cases whole with
  | nil =>
      split
      next => exact absurd rfl hrest
      next => rfl
      all_goals contradiction
  | cons digit whole =>
      split
      next => contradiction
      next => contradiction
      next => exact absurd rfl hrest
      next => rfl

end Weights

section Rules

variable {ω : Type} [Weight ω]

-- The reader of the rules that stand in a rule of the next depth.
def readInline (compile : Compiler) (depth : Nat) : Reader (Rule ω) := do
  let rule ← readRule compile depth
  closeInline
  return rule

theorem readRule_succ (compile : Compiler) (depth : Nat) :
    (readRule compile (depth + 1) : Reader (Rule ω)) = do
      let choices ← readChoices (readInline compile depth)
      let substitutions ← readDirectives compile
      return Rule.ofChoices choices false substitutions none :=
  rfl

end Rules

end PhraseGrammar.Reading
