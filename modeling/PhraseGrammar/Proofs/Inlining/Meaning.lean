import PhraseGrammar.Grammar.Generation
import PhraseGrammar.Proofs.Binding.BoundRule
import PhraseGrammar.Proofs.Inlining.Resolved

namespace PhraseGrammar

variable {ω : Type} [Weight ω]

section Meaning

variable (resolved : String → Option (Rule ω)) (find found : String → Option (Nat × Tally ω))
  (follow followed : Nat → Generation ω String) (context : Context) (equalizeAll : Bool)

-- A name means the same with and without inlining. `find` and `follow` are
-- there for all names; with `found` and `followed`, a local name is not looked
-- up but stands for its resolved rule.
def Corresponds (name : String) : Prop :=
  if isLocal name then
    ∃ rule index, resolved name = some rule ∧
      find name = some (index, (rule.boundBy found).tally) ∧
      follow index = (rule.boundBy found).generate followed context equalizeAll
  else
    (find name = none ∧ found name = none) ∨
      ∃ index place tally, find name = some (index, tally) ∧ found name = some (place, tally) ∧
        follow index = followed place

mutual

-- If every name in a rule means the same, then the rule does.
theorem Rule.meaning_inlinedBy : ∀ rule : Rule ω,
    (∀ name ∈ rule.references.map Prod.fst,
      Corresponds resolved find found follow followed context equalizeAll name) →
    ((rule.inlinedBy resolved).boundBy found).tally = (rule.boundBy find).tally ∧
      ((rule.inlinedBy resolved).boundBy found).generate followed context equalizeAll =
        (rule.boundBy find).generate follow context equalizeAll
  | ⟨choices, _, _, _, _, _⟩, h => by
      obtain ⟨hweights, hcounts, hgenerate⟩ := meaning_inlinedChoices choices h
      constructor
      · simp only [Rule.inlinedBy, Rule.inlined, Rule.boundBy, Rule.bound, Rule.tally, Rule.weight,
          Rule.total, Rule.combinations, hweights, hcounts]
      · simp only [Rule.inlinedBy, Rule.inlined, Rule.boundBy, Rule.bound, Rule.generate, hweights,
          hgenerate]

theorem meaning_inlinedChoices : ∀ choices : List (Choice ω),
    (∀ name ∈ (referencesOfChoices choices).map Prod.fst,
      Corresponds resolved find found follow followed context equalizeAll name) →
    (boundChoices (fixedAnswer found) (inlinedChoices (fixedAnswer resolved) choices ()).1 ()).1.map
          Choice.weight =
        (boundChoices (fixedAnswer find) choices ()).1.map Choice.weight ∧
      (boundChoices (fixedAnswer found) (inlinedChoices (fixedAnswer resolved) choices ()).1 ()).1.map
          Choice.combinations =
        (boundChoices (fixedAnswer find) choices ()).1.map Choice.combinations ∧
      ∀ index,
        generateChoice followed context equalizeAll
            (boundChoices (fixedAnswer found)
              (inlinedChoices (fixedAnswer resolved) choices ()).1 ()).1 index =
          generateChoice follow context equalizeAll
            (boundChoices (fixedAnswer find) choices ()).1 index
  | [], _ => ⟨rfl, rfl, fun _ => rfl⟩
  | ⟨parts, _, _, _⟩ :: rest, h => by
      simp only [referencesOfChoices, List.map_append, List.forall_mem_append] at h
      obtain ⟨htally, hparts⟩ := meaning_inlinedParts parts Tally.one h.1
      obtain ⟨hweights, hcounts, hrest⟩ := meaning_inlinedChoices rest h.2
      simp only [inlinedChoices, boundChoices, List.map_cons, Choice.weight, htally]
      refine ⟨congrArg _ hweights, congrArg _ hcounts, fun index => ?_⟩
      cases index with
      | zero => exact hparts
      | succ index => exact hrest index

theorem meaning_inlinedParts : ∀ (parts : List (Part ω)) (tally : Tally ω),
    (∀ name ∈ (referencesOfParts parts).map Prod.fst,
      Corresponds resolved find found follow followed context equalizeAll name) →
    (boundParts (fixedAnswer found) (inlinedParts (fixedAnswer resolved) parts ()).1 tally ()).2.1 =
        (boundParts (fixedAnswer find) parts tally ()).2.1 ∧
      generateParts followed context equalizeAll
          (boundParts (fixedAnswer found) (inlinedParts (fixedAnswer resolved) parts ()).1 tally
            ()).1 =
        generateParts follow context equalizeAll (boundParts (fixedAnswer find) parts tally ()).1
  | [], _, _ => ⟨rfl, rfl⟩
  | .literal text :: rest, tally, h => by
      obtain ⟨htally, hrest⟩ := meaning_inlinedParts rest tally h
      simp only [inlinedParts, boundParts, generateParts, htally, hrest, and_self]
  | .inline rule :: rest, tally, h => by
      simp only [referencesOfParts, List.map_append, List.forall_mem_append] at h
      obtain ⟨hone, hrule⟩ := rule.meaning_inlinedBy h.1
      rw [Rule.inlinedBy, Rule.boundBy, Rule.boundBy] at hone hrule
      obtain ⟨htally, hrest⟩ :=
        meaning_inlinedParts rest (tally.times (rule.bound (fixedAnswer find) ()).1.tally) h.2
      simp only [inlinedParts, boundParts, generateParts, hone, hrule, htally, hrest, and_self]
  | .reference name link :: rest, tally, h => by
      simp only [referencesOfParts, List.map_cons, List.forall_mem_cons] at h
      obtain ⟨hname, hmore⟩ := h
      -- A local name is replaced by its rule, any other one is looked up again.
      unfold Corresponds at hname
      split at hname
      · rename_i hlocal
        obtain ⟨rule, index, hresolved, hfind, hfollow⟩ := hname
        rw [Rule.boundBy] at hfind hfollow
        have hrule := fixedAnswer_eq resolved name _ hresolved
        have hindex := fixedAnswer_eq find name _ hfind
        obtain ⟨htally, hrest⟩ :=
          meaning_inlinedParts rest (tally.times (rule.bound (fixedAnswer found) ()).1.tally) hmore
        simp only [inlinedParts, hlocal, hrule, if_true, boundParts, hindex, generateParts, htally,
          hrest, hfollow, and_self]
      · rename_i hlocal
        rcases hname with ⟨hfind, hfound⟩ | ⟨index, place, factor, hfind, hfound, hfollow⟩
        · have hnone := fixedAnswer_eq find name _ hfind
          have hnone' := fixedAnswer_eq found name _ hfound
          obtain ⟨htally, hrest⟩ := meaning_inlinedParts rest tally hmore
          simp only [inlinedParts, hlocal, if_false, Bool.false_eq_true, boundParts, hnone, hnone',
            generateParts, htally, hrest, and_self]
        · have hindex := fixedAnswer_eq find name _ hfind
          have hplace := fixedAnswer_eq found name _ hfound
          obtain ⟨htally, hrest⟩ := meaning_inlinedParts rest (tally.times factor) hmore
          simp only [inlinedParts, hlocal, if_false, Bool.false_eq_true, boundParts, hindex, hplace,
            generateParts, htally, hrest, hfollow, and_self]

end

end Meaning

end PhraseGrammar
