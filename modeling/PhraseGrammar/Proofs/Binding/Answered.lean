import PhraseGrammar.Grammar.Binding
import PhraseGrammar.Proofs.Rule.Answers
import PhraseGrammar.Proofs.Rule.References

namespace PhraseGrammar

variable {ω : Type} [Weight ω]

-- The rule bound by answers that have been collected for its references.
def Rule.answered (rule : Rule ω) (given : List (Option (Nat × Tally ω))) : Rule ω :=
  (rule.bound nextAnswer given).1

-- The rule bound by answers that depend on the name alone.
def Rule.boundBy (rule : Rule ω) (find : String → Option (Nat × Tally ω)) : Rule ω :=
  (rule.bound (fixedAnswer find) ()).1

section Answered

variable {σ : Type} (follow : String → σ → Option (Nat × Tally ω) × σ)

-- Binding asks for the references from left to right, and what it makes of
-- the rule hangs on the answers alone. Answers to further references are left.
mutual

theorem Rule.bound_answers : ∀ (rule : Rule ω) (state : σ) (more : List (Option (Nat × Tally ω))),
    rule.bound nextAnswer ((answers follow (rule.references.map Prod.fst) state).1 ++ more) =
        ((rule.bound follow state).1, more) ∧
      (rule.bound follow state).2 = (answers follow (rule.references.map Prod.fst) state).2
  | ⟨choices, _, _, _, _, _⟩, state, more => by
      obtain ⟨hchoices, hstate⟩ := boundChoices_answers choices state more
      simp only [Rule.bound, Rule.references, hchoices, hstate, and_self]

theorem boundChoices_answers : ∀ (choices : List (Choice ω)) (state : σ)
    (more : List (Option (Nat × Tally ω))),
    boundChoices nextAnswer choices
          ((answers follow ((referencesOfChoices choices).map Prod.fst) state).1 ++ more) =
        ((boundChoices follow choices state).1, more) ∧
      (boundChoices follow choices state).2 =
        (answers follow ((referencesOfChoices choices).map Prod.fst) state).2
  | [], _, _ => ⟨rfl, rfl⟩
  | ⟨parts, _, _, _⟩ :: rest, state, more => by
      have hparts := boundParts_answers parts Tally.one state
      rcases hp : boundParts follow parts Tally.one state with ⟨parts', tally, next⟩
      simp only [hp] at hparts
      obtain ⟨hrest, hstate⟩ := boundChoices_answers rest next more
      simp only [referencesOfChoices, List.map_append, answers_append, List.append_assoc,
        boundChoices, hp, (hparts _).1, ← (hparts []).2, hrest, hstate, and_self]

theorem boundParts_answers : ∀ (parts : List (Part ω)) (tally : Tally ω) (state : σ)
    (more : List (Option (Nat × Tally ω))),
    boundParts nextAnswer parts tally
          ((answers follow ((referencesOfParts parts).map Prod.fst) state).1 ++ more) =
        ((boundParts follow parts tally state).1, (boundParts follow parts tally state).2.1, more) ∧
      (boundParts follow parts tally state).2.2 =
        (answers follow ((referencesOfParts parts).map Prod.fst) state).2
  | [], _, _, _ => ⟨rfl, rfl⟩
  | .literal _ :: rest, tally, state, more => by
      obtain ⟨hrest, hstate⟩ := boundParts_answers rest tally state more
      simp only [referencesOfParts, boundParts, hrest, ← hstate, and_self]
  | .inline rule :: rest, tally, state, more => by
      have hrule := rule.bound_answers state
      rcases hr : rule.bound follow state with ⟨rule', next⟩
      simp only [hr] at hrule
      obtain ⟨hrest, hstate⟩ := boundParts_answers rest (tally.times rule'.tally) next more
      simp only [referencesOfParts, List.map_append, answers_append, List.append_assoc,
        boundParts, hr, (hrule _).1, ← (hrule []).2, hrest, ← hstate, and_self]
  | .reference name _ :: rest, tally, state, more => by
      simp only [referencesOfParts, List.map_cons, answers, List.cons_append, boundParts,
        nextAnswer]
      rcases follow name state with ⟨_ | ⟨index, factor⟩, next⟩
      · obtain ⟨hrest, hstate⟩ := boundParts_answers rest tally next more
        simp only [hrest, ← hstate, and_self]
      · obtain ⟨hrest, hstate⟩ := boundParts_answers rest (tally.times factor) next more
        simp only [hrest, ← hstate, and_self]

end

end Answered

-- Binding is asking for all references first and using the answers then.
theorem Rule.bound_eq_answered {σ : Type} (follow : String → σ → Option (Nat × Tally ω) × σ)
    (rule : Rule ω) (state : σ) :
    rule.bound follow state =
      (rule.answered (answers follow rule.mentions state).1,
        (answers follow rule.mentions state).2) := by
  obtain ⟨hrule, hstate⟩ := rule.bound_answers follow state []
  rw [List.append_nil] at hrule
  rw [Rule.answered, Rule.mentions, hrule, ← hstate]

theorem Rule.answered_map (rule : Rule ω) (find : String → Option (Nat × Tally ω)) :
    rule.answered (rule.mentions.map find) = rule.boundBy find := by
  rw [Rule.boundBy, rule.bound_eq_answered, answers_fixedAnswer]

-- Only what is found for the names in a rule matters to it.
theorem Rule.boundBy_congr (rule : Rule ω) (find other : String → Option (Nat × Tally ω))
    (h : ∀ name ∈ rule.mentions, find name = other name) :
    rule.boundBy find = rule.boundBy other := by
  rw [← rule.answered_map, ← rule.answered_map, List.map_congr_left h]

end PhraseGrammar
