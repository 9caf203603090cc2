import PhraseGrammar.Grammar.Generation
import PhraseGrammar.Proofs.Rule.Content

namespace PhraseGrammar

variable {ω : Type} [Weight ω]

section Meaning

variable (find found : String → Option (Nat × Tally ω))
  (follow followed : Nat → Generation ω String) (context : Context) (equalizeAll : Bool)

-- In two bindings a name leads nowhere, or it contributes the same to a choice
-- and the same texts are generated from where it leads.
def Matches (name : String) : Prop :=
  (find name = none ∧ found name = none) ∨
    ∃ index place tally, find name = some (index, tally) ∧ found name = some (place, tally) ∧
      follow index = followed place

mutual

-- What a rule contributes and generates once it is bound hangs on its content
-- and on what the names in it lead to.
theorem Rule.meaning_content : ∀ rule : Rule ω,
    (∀ name ∈ rule.references.map Prod.fst, Matches find found follow followed name) →
    (rule.content.boundBy found).tally = (rule.boundBy find).tally ∧
      (rule.content.boundBy found).generate followed context equalizeAll =
        (rule.boundBy find).generate follow context equalizeAll
  | ⟨choices, _, _, _, _, _⟩, h => by
      obtain ⟨hweights, hcounts, hgenerate⟩ := meaning_contentOfChoices choices h
      constructor
      · simp only [Rule.content, Rule.boundBy, Rule.bound, Rule.tally, Rule.weight, Rule.total,
          Rule.combinations, hweights, hcounts]
      · simp only [Rule.content, Rule.boundBy, Rule.bound, Rule.generate, hweights, hgenerate]

theorem meaning_contentOfChoices : ∀ choices : List (Choice ω),
    (∀ name ∈ (referencesOfChoices choices).map Prod.fst,
      Matches find found follow followed name) →
    (boundChoices (fixedAnswer found) (contentOfChoices choices) ()).1.map Choice.weight =
        (boundChoices (fixedAnswer find) choices ()).1.map Choice.weight ∧
      (boundChoices (fixedAnswer found) (contentOfChoices choices) ()).1.map Choice.combinations =
        (boundChoices (fixedAnswer find) choices ()).1.map Choice.combinations ∧
      ∀ index,
        generateChoice followed context equalizeAll
            (boundChoices (fixedAnswer found) (contentOfChoices choices) ()).1 index =
          generateChoice follow context equalizeAll
            (boundChoices (fixedAnswer find) choices ()).1 index
  | [], _ => ⟨rfl, rfl, fun _ => rfl⟩
  | ⟨parts, _, _, _⟩ :: rest, h => by
      simp only [referencesOfChoices, List.map_append, List.forall_mem_append] at h
      obtain ⟨htally, hparts⟩ := meaning_contentOfParts parts Tally.one h.1
      obtain ⟨hweights, hcounts, hrest⟩ := meaning_contentOfChoices rest h.2
      simp only [contentOfChoices, boundChoices, List.map_cons, Choice.weight, htally]
      refine ⟨congrArg _ hweights, congrArg _ hcounts, fun index => ?_⟩
      cases index with
      | zero => exact hparts
      | succ index => exact hrest index

theorem meaning_contentOfParts : ∀ (parts : List (Part ω)) (tally : Tally ω),
    (∀ name ∈ (referencesOfParts parts).map Prod.fst,
      Matches find found follow followed name) →
    (boundParts (fixedAnswer found) (contentOfParts parts) tally ()).2.1 =
        (boundParts (fixedAnswer find) parts tally ()).2.1 ∧
      generateParts followed context equalizeAll
          (boundParts (fixedAnswer found) (contentOfParts parts) tally ()).1 =
        generateParts follow context equalizeAll (boundParts (fixedAnswer find) parts tally ()).1
  | [], _, _ => ⟨rfl, rfl⟩
  | .literal text :: rest, tally, h => by
      obtain ⟨htally, hrest⟩ := meaning_contentOfParts rest tally h
      simp only [contentOfParts, boundParts, generateParts, htally, hrest, and_self]
  | .inline rule :: rest, tally, h => by
      simp only [referencesOfParts, List.map_append, List.forall_mem_append] at h
      obtain ⟨hone, hrule⟩ := rule.meaning_content h.1
      rw [Rule.boundBy, Rule.boundBy] at hone hrule
      obtain ⟨htally, hrest⟩ :=
        meaning_contentOfParts rest (tally.times (rule.bound (fixedAnswer find) ()).1.tally) h.2
      simp only [contentOfParts, boundParts, generateParts, hone, hrule, htally, hrest, and_self]
  | .reference name link :: rest, tally, h => by
      simp only [referencesOfParts, List.map_cons, List.forall_mem_cons] at h
      obtain ⟨hname, hmore⟩ := h
      rcases hname with ⟨hfind, hfound⟩ | ⟨index, place, factor, hfind, hfound, hfollow⟩
      · have hnone := fixedAnswer_eq find name _ hfind
        have hnone' := fixedAnswer_eq found name _ hfound
        obtain ⟨htally, hrest⟩ := meaning_contentOfParts rest tally hmore
        simp only [contentOfParts, boundParts, hnone, hnone', generateParts, htally, hrest,
          and_self]
      · have hindex := fixedAnswer_eq find name _ hfind
        have hplace := fixedAnswer_eq found name _ hfound
        obtain ⟨htally, hrest⟩ := meaning_contentOfParts rest (tally.times factor) hmore
        simp only [contentOfParts, boundParts, hindex, hplace, generateParts, htally, hrest,
          hfollow, and_self]

end

-- Rules with the same content mean the same, if the names in them do.
theorem Rule.meaning_eq (rule other : Rule ω) (hcontent : rule.content = other.content)
    (h : ∀ name ∈ rule.mentions, Matches find found follow followed name) :
    (rule.boundBy find).tally = (other.boundBy found).tally ∧
      (rule.boundBy find).generate follow context equalizeAll =
        (other.boundBy found).generate followed context equalizeAll := by
  have hmentions : other.mentions = rule.mentions := by
    rw [← other.mentions_content, ← hcontent, rule.mentions_content]
  have hother : ∀ name ∈ other.mentions, Matches found found followed followed name := by
    intro name hname
    rcases h name (hmentions ▸ hname) with ⟨_, hnone⟩ | ⟨_, place, tally, _, hplace, _⟩
    · exact .inl ⟨hnone, hnone⟩
    · exact .inr ⟨place, place, tally, hplace, hplace, rfl⟩
  have hleft := rule.meaning_content find found follow followed context equalizeAll h
  have hright := other.meaning_content found found followed followed context equalizeAll hother
  rw [← hcontent] at hright
  exact ⟨hleft.1.symm.trans hright.1, hleft.2.symm.trans hright.2⟩

end Meaning

end PhraseGrammar
