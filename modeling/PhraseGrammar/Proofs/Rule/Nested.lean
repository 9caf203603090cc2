import PhraseGrammar.Proofs.Rule.References

namespace PhraseGrammar

variable {ω : Type}

theorem Rule.nested_eq (rule : Rule ω) : rule.nested = rule :: nestedInChoices rule.choices := by
  cases rule
  rw [Rule.nested]

theorem Rule.self_mem_nested (rule : Rule ω) : rule ∈ rule.nested := by
  rw [rule.nested_eq]
  exact List.mem_cons_self

theorem nestedInChoices_cons (choice : Choice ω) (rest : List (Choice ω)) :
    nestedInChoices (choice :: rest) = nestedInParts choice.parts ++ nestedInChoices rest := by
  cases choice
  rfl

theorem referencesOfChoices_cons (choice : Choice ω) (rest : List (Choice ω)) :
    referencesOfChoices (choice :: rest) =
      referencesOfParts choice.parts ++ referencesOfChoices rest := by
  cases choice
  rfl

mutual

-- What is inside an inner rule is inside the outer one.
theorem Rule.nested_trans : ∀ (rule middle : Rule ω), middle ∈ rule.nested →
    middle.nested ⊆ rule.nested
  | ⟨choices, table, equalized, substitutions, fixedWeight, mark⟩, middle, h => by
      rw [Rule.nested] at h
      rcases List.mem_cons.mp h with rfl | h
      · exact List.Subset.refl _
      · exact List.subset_cons_of_subset _ (nestedInChoices_trans choices middle h)

theorem nestedInChoices_trans : ∀ (choices : List (Choice ω)) (middle : Rule ω),
    middle ∈ nestedInChoices choices → middle.nested ⊆ nestedInChoices choices
  | [], _, h => by simp [nestedInChoices] at h
  | ⟨parts, _, _, _⟩ :: rest, middle, h => by
      rcases List.mem_append.mp h with h | h
      · exact List.subset_append_of_subset_left _ (nestedInParts_trans parts middle h)
      · exact List.subset_append_of_subset_right _ (nestedInChoices_trans rest middle h)

theorem nestedInParts_trans : ∀ (parts : List (Part ω)) (middle : Rule ω),
    middle ∈ nestedInParts parts → middle.nested ⊆ nestedInParts parts
  | [], _, h => by simp [nestedInParts] at h
  | .literal _ :: rest, middle, h => nestedInParts_trans rest middle h
  | .reference _ _ :: rest, middle, h => nestedInParts_trans rest middle h
  | .inline rule :: rest, middle, h => by
      rcases List.mem_append.mp h with h | h
      · exact List.subset_append_of_subset_left _ (rule.nested_trans middle h)
      · exact List.subset_append_of_subset_right _ (nestedInParts_trans rest middle h)

end

mutual

-- What an inner rule refers to, the outer one does.
theorem Rule.references_nested : ∀ (rule inner : Rule ω), inner ∈ rule.nested →
    inner.references ⊆ rule.references
  | ⟨choices, table, equalized, substitutions, fixedWeight, mark⟩, inner, h => by
      rw [Rule.nested] at h
      rcases List.mem_cons.mp h with rfl | h
      · exact List.Subset.refl _
      · exact references_nestedInChoices choices inner h

theorem references_nestedInChoices : ∀ (choices : List (Choice ω)) (inner : Rule ω),
    inner ∈ nestedInChoices choices → inner.references ⊆ referencesOfChoices choices
  | [], _, h => by simp [nestedInChoices] at h
  | ⟨parts, _, _, _⟩ :: rest, inner, h => by
      rcases List.mem_append.mp h with h | h
      · exact List.subset_append_of_subset_left _ (references_nestedInParts parts inner h)
      · exact List.subset_append_of_subset_right _ (references_nestedInChoices rest inner h)

theorem references_nestedInParts : ∀ (parts : List (Part ω)) (inner : Rule ω),
    inner ∈ nestedInParts parts → inner.references ⊆ referencesOfParts parts
  | [], _, h => by simp [nestedInParts] at h
  | .literal _ :: rest, inner, h => references_nestedInParts rest inner h
  | .reference _ _ :: rest, inner, h =>
      List.subset_cons_of_subset _ (references_nestedInParts rest inner h)
  | .inline rule :: rest, inner, h => by
      rcases List.mem_append.mp h with h | h
      · exact List.subset_append_of_subset_left _ (rule.references_nested inner h)
      · exact List.subset_append_of_subset_right _ (references_nestedInParts rest inner h)

end

theorem mem_nestedInParts (parts : List (Part ω)) (rule : Rule ω) (h : .inline rule ∈ parts) :
    rule ∈ nestedInParts parts := by
  induction parts with
  | nil => simp at h
  | cons part rest ih =>
      rcases List.mem_cons.mp h with rfl | hrest
      · exact List.mem_append_left _ rule.self_mem_nested
      · cases part with
        | literal _ => exact ih hrest
        | reference _ _ => exact ih hrest
        | inline other => exact List.mem_append_right _ (ih hrest)

theorem mem_referencesOfParts (parts : List (Part ω)) (name : String) (link : Option Nat)
    (h : .reference name link ∈ parts) : (name, link) ∈ referencesOfParts parts := by
  induction parts with
  | nil => simp at h
  | cons part rest ih =>
      rcases List.mem_cons.mp h with rfl | hrest
      · exact List.mem_cons_self
      · cases part with
        | literal _ => exact ih hrest
        | reference _ _ => exact List.mem_cons_of_mem _ (ih hrest)
        | inline other => exact List.mem_append_right _ (ih hrest)

-- A rule that stands in a choice of another is inside it.
theorem Rule.mem_nested_of_inline (rule inner : Rule ω) (choice : Choice ω)
    (hchoice : choice ∈ rule.choices) (hpart : .inline inner ∈ choice.parts) :
    inner ∈ rule.nested := by
  have hparts := mem_nestedInParts choice.parts inner hpart
  rw [rule.nested_eq]
  apply List.mem_cons_of_mem
  generalize rule.choices = choices at hchoice
  induction choices with
  | nil => simp at hchoice
  | cons first rest ih =>
      rw [nestedInChoices_cons]
      rcases List.mem_cons.mp hchoice with rfl | hrest
      · exact List.mem_append_left _ hparts
      · exact List.mem_append_right _ (ih hrest)

theorem Rule.mem_references_of_part (rule : Rule ω) (name : String) (link : Option Nat)
    (choice : Choice ω) (hchoice : choice ∈ rule.choices)
    (hpart : .reference name link ∈ choice.parts) : (name, link) ∈ rule.references := by
  have hparts := mem_referencesOfParts choice.parts name link hpart
  obtain ⟨choices, _, _, _, _, _⟩ := rule
  rw [Rule.references]
  induction choices with
  | nil => simp at hchoice
  | cons first rest ih =>
      rw [referencesOfChoices_cons]
      rcases List.mem_cons.mp hchoice with rfl | hrest
      · exact List.mem_append_left _ hparts
      · exact List.mem_append_right _ (ih hrest)

end PhraseGrammar
