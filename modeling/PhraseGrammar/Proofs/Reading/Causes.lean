import PhraseGrammar.Proofs.Inlining.Locals
import PhraseGrammar.Proofs.Reading.Turns
import PhraseGrammar.Proofs.Reading.Weights

namespace PhraseGrammar

theorem eq_of_mem_zip_of_append_eq (left right more other : List Char)
    (h : left ++ more = right ++ other) : ∀ pair ∈ left.zip right, pair.1 = pair.2 := by
  induction left generalizing right with
  | nil => exact nofun
  | cons first left ih =>
      cases right with
      | nil => exact nofun
      | cons second right =>
          obtain ⟨hfirst, hrest⟩ := List.cons.inj h
          exact List.forall_mem_cons.mpr ⟨hfirst, ih right hrest⟩

-- Two texts that are known to differ in what they start with.
theorem append_ne_append (left right more other : String)
    (h : ∃ pair ∈ left.toList.zip right.toList, pair.1 ≠ pair.2) :
    left ++ more ≠ right ++ other := by
  intro heq
  obtain ⟨pair, hpair, hne⟩ := h
  have hlists := congrArg String.toList heq
  rw [String.toList_append, String.toList_append] at hlists
  exact hne (eq_of_mem_zip_of_append_eq _ _ _ _ hlists pair hpair)

theorem ne_append (left right other : String)
    (h : ∃ pair ∈ left.toList.zip right.toList, pair.1 ≠ pair.2) : left ≠ right ++ other := by
  have hne := append_ne_append left right "" other h
  rwa [String.append_empty] at hne

namespace Cause

theorem message_openQuote (quote : Char) :
    (openQuote quote).message = "The end of the " ++ (quote.toString ++ ("quoted text" ++
      (quote.toString ++ " is expected."))) := by
  simp only [← String.append_assoc]
  rfl

theorem message_closingExpected (terminator : Char) :
    (closingExpected terminator).message = "\"" ++ (terminator.toString ++ "\" is expected.") := by
  simp only [← String.append_assoc]
  rfl

theorem message_assignedTwice (name : String) :
    (assignedTwice name).message = "The nonterminal \"" ++ (name ++ "\" is already defined.") := by
  simp only [← String.append_assoc]
  rfl

theorem message_numberExpected (numeral : String) :
    (numberExpected numeral).message = "The weight \"" ++ (numeral ++ "\" is not a number.") := by
  simp only [← String.append_assoc]
  rfl

-- No other message starts like the one about a numeral.
theorem message_ne (cause : Cause) (h : cause.refusesNumeral = false) (other : String) :
    cause.message ≠ "The weight \"" ++ other := by
  cases cause with
  | numberExpected numeral => exact absurd h Bool.noConfusion
  | openQuote quote =>
      rw [message_openQuote]
      exact append_ne_append _ _ _ _ (by decide +kernel)
  | closingExpected terminator =>
      rw [message_closingExpected]
      exact append_ne_append _ _ _ _ (by decide +kernel)
  | refusedSubstitution reason => exact append_ne_append _ _ _ _ (by decide +kernel)
  | assignedTwice name =>
      rw [message_assignedTwice]
      exact append_ne_append _ _ _ _ (by decide +kernel)
  | _ => exact ne_append _ _ _ (by decide +kernel)

end Cause

def Diagnostic.refusesNumeral : Diagnostic → Bool
  | .unreadable _ _ cause => cause.refusesNumeral
  | _ => false

namespace Reading

section Composition

variable {α β : Type}

-- The reader never fails over a numeral that it has taken.
def TakesNumerals (reader : Reader α) : Prop :=
  ∀ cursor failure, reader cursor = .error failure → failure.cause.refusesNumeral = false

theorem takesNumerals_bind {first : Reader α} {next : α → Reader β} (hfirst : TakesNumerals first)
    (hnext : ∀ value, TakesNumerals (next value)) : TakesNumerals (first >>= next) := by
  intro cursor failure h
  cases hread : first cursor with
  | error other =>
      rw [bind_of_error hread] at h
      exact Except.error.inj h ▸ hfirst cursor other hread
  | ok read =>
      obtain ⟨value, left⟩ := read
      rw [bind_of_ok hread] at h
      exact hnext value left failure h

theorem composes_takesNumerals : Composes TakesNumerals where
  pure := fun _ _ _ h => nomatch h
  fail := fun _ hcause _ _ h => Except.error.inj h ▸ hcause
  remaining := fun _ _ h => nomatch h
  skip := fun _ _ _ h => nomatch h
  bind := takesNumerals_bind

end Composition

variable {ω : Type} [Weight ω] (compile : Compiler)

theorem takesNumerals_readWeight : TakesNumerals (readWeight : Reader (Option ω)) := by
  intro cursor failure h
  rw [readWeight_error cursor failure h]
  rfl

theorem takesNumerals_readInto (grammar : Grammar ω) : TakesNumerals (readInto compile grammar) :=
  composed_readInto composes_takesNumerals takesNumerals_readWeight compile grammar

theorem refusesNumeral_readTurn (progress : Progress ω) (cursor : Cursor)
    (h : ∀ report ∈ progress.reports, report.refusesNumeral = false) :
    ∀ report ∈ (readTurn compile progress cursor).1.reports, report.refusesNumeral = false := by
  rw [readTurn]
  split
  · exact h
  · rename_i failure hread
    refine List.forall_mem_append.mpr ⟨h, List.forall_mem_singleton.mpr ?_⟩
    exact takesNumerals_readInto compile progress.grammar cursor failure hread

theorem refusesNumeral_readGrammar (text : String) :
    ∀ report ∈ (readGrammar compile text : Grammar ω × _).2, report.refusesNumeral = false := by
  refine List.forall_mem_append.mpr ⟨?_, fun report hreport => ?_⟩
  · exact readTurns_induction compile (refusesNumeral_readTurn compile) _ _ _
      (List.forall_mem_nil _)
  · obtain ⟨name, rfl | rfl⟩ := Grammar.unresolved_inlineLocals _ report hreport <;> rfl

-- A weight is the longest numeral at the cursor. Every numeral is a number, so
-- no report on any text says that one is not.
theorem weights_are_longest_numerals :
    (∀ cursor : Cursor, ReadsLongest ω cursor) ∧
      (∀ text, (Decimal.readNumeral? text).isSome ↔
        ∃ numeral : Written.Numeral, numeral.text = text) ∧
      ∀ text, ∀ report ∈ (readGrammar compile text : Grammar ω × _).2,
        ∀ line column cause, report = .unreadable line column cause →
          ∀ numeral, cause.message ≠ (Cause.numberExpected numeral).message := by
  refine ⟨readsLongest_readWeight, isSome_readNumeral?_iff, ?_⟩
  rintro text _ hreport line column cause rfl numeral
  rw [Cause.message_numberExpected]
  exact cause.message_ne (refusesNumeral_readGrammar compile text _ hreport) _

-- A text that a numeral is read from up to its second point.
def pointed : Cursor := Cursor.ofText ['2', '.', '5', '.', '6']

-- After a point alone reading stops, and a letter is no weight.
theorem weights_with_points :
    (∃ numeral : Written.Numeral, Longest numeral pointed.rest ∧
      readWeight pointed =
        .ok (some (numeral.value : Rat), pointed.forward numeral.text.length)) ∧
      (readWeight (Cursor.ofText ['.', 'x']) : Except Failure (Option Rat × Cursor)) =
        .error ⟨.digitExpected, ⟨['x'], ⟨1, 2⟩⟩⟩ ∧
      readWeight (Cursor.ofText ['x', '2']) =
        .ok ((none : Option Rat), Cursor.ofText ['x', '2']) := by
  obtain ⟨hlongest, _⟩ := weights_are_longest_numerals (ω := Rat) fun _ _ _ => .error "refused"
  refine ⟨(hlongest pointed).numeral (.inl ⟨'2', rfl, by decide⟩),
    (hlongest _).point ['x'] rfl ?_, (hlongest _).nothing ?_⟩
  · rintro _ ⟨⟩
    decide
  · rintro _ ⟨⟩
    decide

example : readWeight pointed = .ok (some (5 / 2 : Rat), ⟨['.', '6'], ⟨1, 4⟩⟩) := by
  decide +kernel

end Reading

end PhraseGrammar
