import PhraseGrammar.Proofs.Binding.Answered

namespace PhraseGrammar

variable {ω : Type} [Weight ω]

section Links

variable (find : String → Option (Nat × Tally ω))

mutual

-- A bound reference is linked to what has been found for its name.
theorem Rule.references_boundBy : ∀ rule : Rule ω,
    (rule.boundBy find).references =
      (rule.references.map Prod.fst).map fun name => (name, (find name).map Prod.fst)
  | ⟨choices, _, _, _, _, _⟩ => by
      simp only [Rule.boundBy, Rule.bound, Rule.references, references_boundChoices choices]

theorem references_boundChoices : ∀ choices : List (Choice ω),
    referencesOfChoices (boundChoices (fixedAnswer find) choices ()).1 =
      ((referencesOfChoices choices).map Prod.fst).map fun name => (name, (find name).map Prod.fst)
  | [] => rfl
  | ⟨parts, _, _, _⟩ :: rest => by
      simp only [boundChoices, referencesOfChoices, List.map_append,
        references_boundParts parts, references_boundChoices rest]

theorem references_boundParts : ∀ (parts : List (Part ω)) (tally : Tally ω),
    referencesOfParts (boundParts (fixedAnswer find) parts tally ()).1 =
      ((referencesOfParts parts).map Prod.fst).map fun name => (name, (find name).map Prod.fst)
  | [], _ => rfl
  | .literal _ :: rest, tally => by
      simp only [boundParts, referencesOfParts, references_boundParts rest]
  | .inline rule :: rest, tally => by
      have hrule := rule.references_boundBy
      rw [Rule.boundBy] at hrule
      simp only [boundParts, referencesOfParts, List.map_append, hrule, references_boundParts rest]
  | .reference name _ :: rest, tally => by
      simp only [boundParts, fixedAnswer, referencesOfParts, List.map_cons]
      rcases hn : find name with _ | ⟨index, factor⟩ <;>
        simp only [referencesOfParts, references_boundParts rest, Option.map_none, Option.map_some]

end

-- Binding changes links and nothing else about references.
@[simp] theorem Rule.mentions_boundBy (rule : Rule ω) :
    (rule.boundBy find).mentions = rule.mentions := by
  rw [Rule.mentions, rule.references_boundBy, List.map_map]
  exact List.map_id _

end Links

section Tables

variable {σ : Type} (follow : String → σ → Option (Nat × Tally ω) × σ)

mutual

-- Binding leaves every table as long as its choices, at any depth.
theorem Rule.length_table_bound : ∀ (rule : Rule ω) (state : σ),
    ∀ inner ∈ (rule.bound follow state).1.nested, inner.table.length = inner.choices.length
  | ⟨choices, _, _, _, _, _⟩, state, inner, hinner => by
      simp only [Rule.bound, Rule.nested, List.mem_cons] at hinner
      rcases hinner with rfl | hinner
      · simp
      · exact length_table_boundChoices choices state inner hinner

theorem length_table_boundChoices : ∀ (choices : List (Choice ω)) (state : σ),
    ∀ inner ∈ nestedInChoices (boundChoices follow choices state).1,
      inner.table.length = inner.choices.length
  | [], _, _, hinner => by simp [boundChoices, nestedInChoices] at hinner
  | ⟨parts, _, _, _⟩ :: rest, state, inner, hinner => by
      simp only [boundChoices, nestedInChoices, List.mem_append] at hinner
      rcases hinner with hinner | hinner
      · exact length_table_boundParts parts _ state inner hinner
      · exact length_table_boundChoices rest _ inner hinner

theorem length_table_boundParts : ∀ (parts : List (Part ω)) (tally : Tally ω) (state : σ),
    ∀ inner ∈ nestedInParts (boundParts follow parts tally state).1,
      inner.table.length = inner.choices.length
  | [], _, _, _, hinner => by simp [boundParts, nestedInParts] at hinner
  | .literal _ :: rest, tally, state, inner, hinner =>
      length_table_boundParts rest tally state inner hinner
  | .inline rule :: rest, tally, state, inner, hinner => by
      simp only [boundParts, nestedInParts, List.mem_append] at hinner
      rcases hinner with hinner | hinner
      · exact rule.length_table_bound state inner hinner
      · exact length_table_boundParts rest _ _ inner hinner
  | .reference name _ :: rest, tally, state, inner, hinner => by
      rcases hf : follow name state with ⟨_ | ⟨index, factor⟩, next⟩ <;>
        simp only [boundParts, hf, nestedInParts] at hinner <;>
        exact length_table_boundParts rest _ _ inner hinner

end

end Tables

section Again

variable {σ τ : Type} (follow : String → σ → Option (Nat × Tally ω) × σ)
  (again : String → τ → Option (Nat × Tally ω) × τ)

mutual

-- Nothing that an earlier binding has found matters to a later one.
theorem Rule.bound_bound : ∀ (rule : Rule ω) (state : σ) (later : τ),
    (rule.bound follow state).1.bound again later = rule.bound again later
  | ⟨choices, _, _, _, _, _⟩, state, later => by
      simp only [Rule.bound, boundChoices_boundChoices choices]

theorem boundChoices_boundChoices : ∀ (choices : List (Choice ω)) (state : σ) (later : τ),
    boundChoices again (boundChoices follow choices state).1 later =
      boundChoices again choices later
  | [], _, _ => rfl
  | ⟨parts, _, _, _⟩ :: rest, state, later => by
      simp only [boundChoices, boundParts_boundParts parts, boundChoices_boundChoices rest]

theorem boundParts_boundParts : ∀ (parts : List (Part ω)) (tally product : Tally ω) (state : σ)
    (later : τ),
    boundParts again (boundParts follow parts tally state).1 product later =
      boundParts again parts product later
  | [], _, _, _, _ => rfl
  | .literal _ :: rest, _, _, _, _ => by
      simp only [boundParts, boundParts_boundParts rest]
  | .inline rule :: rest, _, _, _, _ => by
      simp only [boundParts, rule.bound_bound, boundParts_boundParts rest]
  | .reference name _ :: rest, _, _, state, _ => by
      simp only [boundParts]
      rcases follow name state with ⟨_ | ⟨index, factor⟩, next⟩ <;>
        simp only [boundParts, boundParts_boundParts rest]

end

end Again

theorem Rule.boundBy_boundBy (rule : Rule ω) (find other : String → Option (Nat × Tally ω)) :
    (rule.boundBy find).boundBy other = rule.boundBy other :=
  congrArg Prod.fst (rule.bound_bound _ _ _ _)

end PhraseGrammar
