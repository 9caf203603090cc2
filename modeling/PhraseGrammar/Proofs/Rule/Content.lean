import PhraseGrammar.Proofs.Binding.BoundRule

namespace PhraseGrammar

variable {ω : Type} [Weight ω]

mutual

-- What a rule says, without anything that binding finds out or leaves behind:
-- links, tables, products, numbers of combinations and marks.
def Rule.content : Rule ω → Rule ω
  | ⟨choices, _, equalized, substitutions, fixedWeight, _⟩ =>
      ⟨contentOfChoices choices, [], equalized, substitutions, fixedWeight, .unbound⟩

def contentOfChoices : List (Choice ω) → List (Choice ω)
  | [] => []
  | ⟨parts, _, fixedWeight, _⟩ :: rest =>
      ⟨contentOfParts parts, 1, fixedWeight, 1⟩ :: contentOfChoices rest

def contentOfParts : List (Part ω) → List (Part ω)
  | [] => []
  | .literal text :: rest => .literal text :: contentOfParts rest
  | .reference name _ :: rest => .reference name none :: contentOfParts rest
  | .inline rule :: rest => .inline rule.content :: contentOfParts rest

end

@[simp] theorem Rule.content_marked (rule : Rule ω) (mark : Mark) :
    (rule.marked mark).content = rule.content := by
  cases rule
  rfl

section Mentions

mutual

@[simp] theorem Rule.references_content : ∀ rule : Rule ω,
    rule.content.references = rule.references.map fun reference => (reference.1, none)
  | ⟨choices, _, _, _, _, _⟩ => by
      simp only [Rule.content, Rule.references, references_contentOfChoices choices]

theorem references_contentOfChoices : ∀ choices : List (Choice ω),
    referencesOfChoices (contentOfChoices choices) =
      (referencesOfChoices choices).map fun reference => (reference.1, none)
  | [] => rfl
  | ⟨parts, _, _, _⟩ :: rest => by
      simp only [contentOfChoices, referencesOfChoices, List.map_append,
        references_contentOfParts parts, references_contentOfChoices rest]

theorem references_contentOfParts : ∀ parts : List (Part ω),
    referencesOfParts (contentOfParts parts) =
      (referencesOfParts parts).map fun reference => (reference.1, none)
  | [] => rfl
  | .literal _ :: rest => by
      simp only [contentOfParts, referencesOfParts, references_contentOfParts rest]
  | .reference _ _ :: rest => by
      simp only [contentOfParts, referencesOfParts, List.map_cons, references_contentOfParts rest]
  | .inline rule :: rest => by
      simp only [contentOfParts, referencesOfParts, List.map_append, rule.references_content,
        references_contentOfParts rest]

end

-- The content of a rule mentions what the rule does.
@[simp] theorem Rule.mentions_content (rule : Rule ω) : rule.content.mentions = rule.mentions := by
  simp [Rule.mentions, Function.comp_def]

mutual

theorem Rule.nested_content : ∀ rule : Rule ω,
    rule.content.nested = rule.nested.map Rule.content
  | ⟨choices, _, _, _, _, _⟩ => by
      simp only [Rule.content, Rule.nested, List.map_cons, nested_contentOfChoices choices]

theorem nested_contentOfChoices : ∀ choices : List (Choice ω),
    nestedInChoices (contentOfChoices choices) = (nestedInChoices choices).map Rule.content
  | [] => rfl
  | ⟨parts, _, _, _⟩ :: rest => by
      simp only [contentOfChoices, nestedInChoices, List.map_append,
        nested_contentOfParts parts, nested_contentOfChoices rest]

theorem nested_contentOfParts : ∀ parts : List (Part ω),
    nestedInParts (contentOfParts parts) = (nestedInParts parts).map Rule.content
  | [] => rfl
  | .literal _ :: rest => by
      simp only [contentOfParts, nestedInParts, nested_contentOfParts rest]
  | .reference _ _ :: rest => by
      simp only [contentOfParts, nestedInParts, nested_contentOfParts rest]
  | .inline rule :: rest => by
      simp only [contentOfParts, nestedInParts, List.map_append, rule.nested_content,
        nested_contentOfParts rest]

end

end Mentions

section Bound

variable {σ : Type} (follow : String → σ → Option (Nat × Tally ω) × σ)

mutual

-- Binding leaves the content of a rule alone.
theorem Rule.content_bound : ∀ (rule : Rule ω) (state : σ),
    (rule.bound follow state).1.content = rule.content
  | ⟨choices, _, _, _, _, _⟩, state => by
      simp only [Rule.bound, Rule.content, contentOfChoices_bound choices]

theorem contentOfChoices_bound : ∀ (choices : List (Choice ω)) (state : σ),
    contentOfChoices (boundChoices follow choices state).1 = contentOfChoices choices
  | [], _ => rfl
  | ⟨parts, _, _, _⟩ :: rest, state => by
      simp only [boundChoices, contentOfChoices, contentOfParts_bound parts,
        contentOfChoices_bound rest]

theorem contentOfParts_bound : ∀ (parts : List (Part ω)) (tally : Tally ω) (state : σ),
    contentOfParts (boundParts follow parts tally state).1 = contentOfParts parts
  | [], _, _ => rfl
  | .literal _ :: rest, tally, state => by
      simp only [boundParts, contentOfParts, contentOfParts_bound rest]
  | .inline rule :: rest, tally, state => by
      simp only [boundParts, contentOfParts, rule.content_bound, contentOfParts_bound rest]
  | .reference name _ :: rest, tally, state => by
      rcases hf : follow name state with ⟨_ | ⟨index, factor⟩, next⟩ <;>
        simp only [boundParts, hf, contentOfParts, contentOfParts_bound rest]

end

end Bound

end PhraseGrammar
