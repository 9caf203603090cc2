import PhraseGrammar.Grammar.Binding
import PhraseGrammar.Grammar.Inlining
import PhraseGrammar.Proofs.Rule.Nested

namespace PhraseGrammar

variable {ω : Type}

-- None of these rules is being bound.
def Resting (rules : List (Rule ω)) : Prop :=
  ∀ rule ∈ rules, rule.mark ≠ .inProgress

-- Neither a rule nor any rule inside it is being bound.
def Rule.AtRest (rule : Rule ω) : Prop := Resting rule.nested

@[simp] theorem resting_append (left right : List (Rule ω)) :
    Resting (left ++ right) ↔ Resting left ∧ Resting right :=
  List.forall_mem_append

theorem Rule.atRest_iff (rule : Rule ω) :
    rule.AtRest ↔ rule.mark ≠ .inProgress ∧ Resting (nestedInChoices rule.choices) := by
  rw [AtRest, rule.nested_eq]
  exact List.forall_mem_cons

theorem Rule.AtRest.marked (rule : Rule ω) (h : rule.AtRest) (mark : Mark)
    (hmark : mark ≠ .inProgress) : (rule.marked mark).AtRest := by
  rw [Rule.atRest_iff] at h ⊢
  exact ⟨hmark, h.2⟩

section Unlinked

mutual

theorem Rule.atRest_unlinked : ∀ rule : Rule ω, rule.unlinked.AtRest
  | ⟨choices, _, _, _, _, _⟩ => by
      rw [Rule.atRest_iff]
      exact ⟨nofun, resting_unlinkedChoices choices⟩

theorem resting_unlinkedChoices : ∀ choices : List (Choice ω),
    Resting (nestedInChoices (unlinkedChoices choices))
  | [] => nofun
  | ⟨parts, _, _, _⟩ :: rest =>
      (resting_append _ _).mpr ⟨resting_unlinkedParts parts, resting_unlinkedChoices rest⟩

theorem resting_unlinkedParts : ∀ parts : List (Part ω),
    Resting (nestedInParts (unlinkedParts parts))
  | [] => nofun
  | .literal _ :: rest => resting_unlinkedParts rest
  | .reference _ _ :: rest => resting_unlinkedParts rest
  | .inline rule :: rest =>
      (resting_append _ _).mpr ⟨rule.atRest_unlinked, resting_unlinkedParts rest⟩

end

end Unlinked

section Bound

variable [Weight ω] {σ : Type} (follow : String → σ → Option (Nat × Tally ω) × σ)

mutual

-- Binding leaves the marks inside a rule as they are.
theorem Rule.atRest_bound : ∀ (rule : Rule ω) (state : σ), rule.AtRest →
    (rule.bound follow state).1.AtRest
  | ⟨choices, _, _, _, _, _⟩, state, h => by
      rw [Rule.atRest_iff] at h ⊢
      exact ⟨h.1, resting_boundChoices choices state h.2⟩

theorem resting_boundChoices : ∀ (choices : List (Choice ω)) (state : σ),
    Resting (nestedInChoices choices) →
    Resting (nestedInChoices (boundChoices follow choices state).1)
  | [], _, h => h
  | ⟨parts, _, _, _⟩ :: rest, state, h => by
      obtain ⟨hparts, hrest⟩ := (resting_append _ _).mp h
      exact (resting_append _ _).mpr
        ⟨resting_boundParts parts Tally.one state hparts, resting_boundChoices rest _ hrest⟩

theorem resting_boundParts : ∀ (parts : List (Part ω)) (tally : Tally ω) (state : σ),
    Resting (nestedInParts parts) → Resting (nestedInParts (boundParts follow parts tally state).1)
  | [], _, _, h => h
  | .literal _ :: rest, tally, state, h => resting_boundParts rest tally state h
  | .inline rule :: rest, tally, state, h => by
      obtain ⟨hrule, hrest⟩ := (resting_append _ _).mp h
      exact (resting_append _ _).mpr
        ⟨rule.atRest_bound state hrule, resting_boundParts rest _ _ hrest⟩
  | .reference name _ :: rest, tally, state, h => by
      rcases hanswer : follow name state with ⟨_ | ⟨index, factor⟩, next⟩ <;>
        simp only [boundParts, hanswer] <;>
        exact resting_boundParts rest _ next h

end

end Bound

section Inlined

variable {σ : Type} {holds : σ → Prop} {resolve : String → σ → Option (Rule ω) × σ}

-- Names are resolved to rules at rest, as long as something holds, and
-- resolving keeps it.
def ResolvesAtRest (holds : σ → Prop) (resolve : String → σ → Option (Rule ω) × σ) : Prop :=
  ∀ name state, holds state → holds (resolve name state).2 ∧
    ∀ rule, (resolve name state).1 = some rule → rule.AtRest

mutual

-- The rules in an inlined rule are its own and those in the rules that have
-- been put into it.
theorem Rule.atRest_inlined (hresolve : ResolvesAtRest holds resolve) :
    ∀ (rule : Rule ω) (state : σ), holds state → rule.AtRest →
      holds (rule.inlined resolve state).2 ∧ (rule.inlined resolve state).1.AtRest
  | ⟨choices, _, _, _, _, _⟩, state, hstate, h => by
      rw [Rule.atRest_iff] at h ⊢
      obtain ⟨hnext, hchoices⟩ := resting_inlinedChoices hresolve choices state hstate h.2
      exact ⟨hnext, h.1, hchoices⟩

theorem resting_inlinedChoices (hresolve : ResolvesAtRest holds resolve) :
    ∀ (choices : List (Choice ω)) (state : σ), holds state → Resting (nestedInChoices choices) →
      holds (inlinedChoices resolve choices state).2 ∧
        Resting (nestedInChoices (inlinedChoices resolve choices state).1)
  | [], _, hstate, h => ⟨hstate, h⟩
  | ⟨parts, _, _, _⟩ :: rest, state, hstate, h => by
      obtain ⟨hparts, hrest⟩ := (resting_append _ _).mp h
      obtain ⟨hnext, hparts⟩ := resting_inlinedParts hresolve parts state hstate hparts
      obtain ⟨hlast, hrest⟩ := resting_inlinedChoices hresolve rest _ hnext hrest
      exact ⟨hlast, (resting_append _ _).mpr ⟨hparts, hrest⟩⟩

theorem resting_inlinedParts (hresolve : ResolvesAtRest holds resolve) :
    ∀ (parts : List (Part ω)) (state : σ), holds state → Resting (nestedInParts parts) →
      holds (inlinedParts resolve parts state).2 ∧
        Resting (nestedInParts (inlinedParts resolve parts state).1)
  | [], _, hstate, h => ⟨hstate, h⟩
  | .literal _ :: rest, state, hstate, h => resting_inlinedParts hresolve rest state hstate h
  | .inline rule :: rest, state, hstate, h => by
      obtain ⟨hrule, hrest⟩ := (resting_append _ _).mp h
      obtain ⟨hnext, hrule⟩ := rule.atRest_inlined hresolve state hstate hrule
      obtain ⟨hlast, hrest⟩ := resting_inlinedParts hresolve rest _ hnext hrest
      exact ⟨hlast, (resting_append _ _).mpr ⟨hrule, hrest⟩⟩
  | .reference name link :: rest, state, hstate, h => by
      by_cases hlocal : isLocal name
      · obtain ⟨hnext, hrule⟩ := hresolve name state hstate
        simp only [inlinedParts, hlocal, if_true]
        rcases hanswer : resolve name state with ⟨_ | rule, next⟩ <;> rw [hanswer] at hnext hrule
        · exact resting_inlinedParts hresolve rest next hnext h
        · obtain ⟨hlast, hrest⟩ := resting_inlinedParts hresolve rest next hnext h
          exact ⟨hlast, (resting_append _ _).mpr ⟨hrule rule rfl, hrest⟩⟩
      · simp only [inlinedParts, hlocal, Bool.false_eq_true, if_false]
        exact resting_inlinedParts hresolve rest state hstate h

end

end Inlined

end PhraseGrammar
