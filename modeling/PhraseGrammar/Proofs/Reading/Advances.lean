import PhraseGrammar.Proofs.Reading.Composes

namespace PhraseGrammar.Reading

namespace Cursor

theorem forward_eq (count : Nat) (text : List Char) (position : Position) :
    forward count ⟨text, position⟩ = ⟨text.drop count, position.after (text.take count)⟩ := by
  have hrest := rest_forward count ⟨text, position⟩
  have hposition := position_forward count ⟨text, position⟩
  rcases hcursor : forward count ⟨text, position⟩ with ⟨rest, after⟩
  rw [hcursor] at hrest hposition
  obtain rfl : rest = text.drop count := hrest
  obtain rfl : after = position.after (text.take count) := hposition
  rfl

@[simp] theorem forward_forward (first second : Nat) (cursor : Cursor) :
    forward second (forward first cursor) = forward (first + second) cursor := by
  induction first generalizing cursor with
  | zero => rw [forward, Nat.zero_add]
  | succ first ih => rw [forward, ih, Nat.add_right_comm, forward]

theorem forward_min (count : Nat) (cursor : Cursor) :
    cursor.forward count = cursor.forward (min count cursor.rest.length) := by
  obtain ⟨text, position⟩ := cursor
  rcases Nat.le_total count text.length with hle | hle
  · rw [Nat.min_eq_left hle]
  · rw [Nat.min_eq_right hle, forward_eq, forward_eq, List.drop_of_length_le hle,
      List.take_of_length_le hle, List.drop_length, List.take_length]

theorem line_forward (count : Nat) (cursor : Cursor) :
    (forward count cursor).position.line =
      cursor.position.line + (cursor.rest.take count).count '\n' := by
  rw [position_forward, Position.line_after]

end Cursor

variable {α β : Type}

-- What the reader does depends on the text only, and it moves the cursor
-- forward, also where it fails.
def Advances (reader : Reader α) : Prop :=
  ∀ text, ∃ count,
    (∃ value, ∀ position,
      reader ⟨text, position⟩ = .ok (value, Cursor.forward count ⟨text, position⟩)) ∨
    ∃ cause, ∀ position,
      reader ⟨text, position⟩ = .error ⟨cause, Cursor.forward count ⟨text, position⟩⟩

theorem advances_pure (value : α) : Advances (pure value) :=
  fun _ => ⟨0, .inl ⟨value, fun _ => rfl⟩⟩

theorem advances_fail (cause : Cause) : Advances (fail cause : Reader α) :=
  fun _ => ⟨0, .inr ⟨cause, fun _ => rfl⟩⟩

theorem advances_remaining : Advances remaining :=
  fun text => ⟨0, .inl ⟨text, fun _ => rfl⟩⟩

theorem advances_skip (count : Nat) : Advances (skip count) :=
  fun _ => ⟨count, .inl ⟨(), fun _ => rfl⟩⟩

theorem advances_bind {first : Reader α} {next : α → Reader β} (hfirst : Advances first)
    (hnext : ∀ value, Advances (next value)) : Advances (first >>= next) := by
  intro text
  obtain ⟨count, ⟨value, hvalue⟩ | ⟨cause, hcause⟩⟩ := hfirst text
  · obtain ⟨more, hmore⟩ := hnext value (text.drop count)
    simp only [Cursor.forward_eq] at hmore
    refine ⟨count + more, ?_⟩
    rcases hmore with ⟨result, hresult⟩ | ⟨cause, hcause⟩
    · refine .inl ⟨result, fun position => ?_⟩
      rw [bind_of_ok (hvalue position), ← Cursor.forward_forward]
      simp only [Cursor.forward_eq, hresult]
    · refine .inr ⟨cause, fun position => ?_⟩
      rw [bind_of_ok (hvalue position), ← Cursor.forward_forward]
      simp only [Cursor.forward_eq, hcause]
  · exact ⟨count, .inr ⟨cause, fun position => bind_of_error (hcause position)⟩⟩

theorem composes_advances : Composes Advances where
  pure := advances_pure
  fail := fun cause _ => advances_fail cause
  remaining := advances_remaining
  skip := advances_skip
  bind := advances_bind

theorem advances_readWhile (property : Char → Bool) : Advances (readWhile property) :=
  composed_readWhile composes_advances property

theorem advances_skipComment : Advances skipComment :=
  composed_skipComment composes_advances

theorem advances_skipBlanks (newlines : Bool) : Advances (skipBlanks newlines) :=
  composed_skipBlanks composes_advances newlines

theorem advances_skipToContinuation : Advances skipToContinuation :=
  composed_skipToContinuation composes_advances

theorem advances_readDirective (compile : Compiler) : Advances (readDirective compile) :=
  composed_readDirective composes_advances compile

section Weights

variable {ω : Type} [Weight ω]

theorem advances_readNumeral (numeral : List Char) : Advances (readNumeral numeral : Reader ω) := by
  refine advances_bind (advances_skip _) fun _ => ?_
  split
  · exact advances_pure _
  · exact advances_fail _

theorem advances_readWeight : Advances (readWeight : Reader (Option ω)) := by
  have hsome : ∀ numeral, Advances (do return some (← readNumeral numeral) : Reader (Option ω)) :=
    fun numeral => advances_bind (advances_readNumeral numeral) fun _ => advances_pure _
  refine advances_bind advances_remaining fun text => ?_
  dsimp only
  split
  · split
    · exact advances_bind (advances_skip 1) fun _ => advances_fail _
    · exact hsome _
  · exact advances_pure _
  · exact hsome _
  · exact hsome _

end Weights

section Choices

variable {ω : Type} {readInline : Reader (Rule ω)} (hinline : Advances readInline)

include hinline

theorem advances_readInner (finish : Rule ω → Draft ω) : Advances (readInner readInline finish) :=
  composed_readInner composes_advances hinline finish

theorem advances_readBraces (draft : Draft ω) : Advances (readBraces readInline draft) :=
  composed_readBraces composes_advances hinline draft

theorem advances_readQuotedBody (quote : Char) (steps : Nat) (draft : Draft ω) :
    Advances (readQuotedBody readInline quote steps draft) :=
  composed_readQuotedBody composes_advances hinline quote steps draft

variable [Weight ω]

theorem advances_readBare : Advances (readBare readInline) :=
  composed_readBare composes_advances hinline

theorem advances_readQuoted (quote : Char) : Advances (readQuoted readInline quote) :=
  composed_readQuoted composes_advances hinline advances_readWeight quote

theorem advances_readChoice : Advances (readChoice readInline) :=
  composed_readChoice composes_advances hinline advances_readWeight

theorem advances_readChoices : Advances (readChoices readInline) :=
  composed_readChoices composes_advances hinline advances_readWeight

end Choices

section Assignments

variable {ω : Type} [Weight ω] (compile : Compiler)

theorem advances_readInline (depth : Nat)
    (hrule : Advances (readRule compile depth : Reader (Rule ω))) :
    Advances (readInline compile depth : Reader (Rule ω)) :=
  composed_readInline composes_advances compile depth hrule

theorem advances_readRule (depth : Nat) : Advances (readRule compile depth : Reader (Rule ω)) :=
  composed_readRule composes_advances advances_readWeight compile depth

theorem advances_readAssignment :
    Advances (readAssignment compile : Reader (Option (Assignment ω))) :=
  composed_readAssignment composes_advances advances_readWeight compile

theorem advances_readInto (grammar : Grammar ω) : Advances (readInto compile grammar) :=
  composed_readInto composes_advances advances_readWeight compile grammar

end Assignments

end PhraseGrammar.Reading
