import PhraseGrammar.Proofs.Grammar.Reachable
import PhraseGrammar.Proofs.Grammar.WellFormed
import PhraseGrammar.Proofs.Inlining.Locals

namespace PhraseGrammar

variable {ω : Type}

-- A local name may stay in a rule only if it is reported that it cannot be
-- resolved.
def MayStay (reports : List Diagnostic) (name : String) : Prop :=
  IsName name ∧
    (isLocal name → .missingLocal name ∈ reports ∨ .recursiveExpansion name ∈ reports)

theorem MayStay.mono {reports more : List Diagnostic} (hsub : reports ⊆ more) (name : String)
    (h : MayStay reports name) : MayStay more name :=
  ⟨h.1, fun hlocal => (h.2 hlocal).imp (@hsub _) (@hsub _)⟩

@[simp] theorem mayStay_nil_iff (name : String) :
    MayStay [] name ↔ IsName name ∧ ¬ isLocal name := by
  simp [MayStay]

section Shape

variable {σ : Type} (resolve : String → σ → Option (Rule ω) × σ)

-- Inlining puts no literal where there was none.
@[simp] theorem isLiteral_inlinedParts (parts : List (Part ω)) (state : σ) :
    (inlinedParts resolve parts state).1.map Part.isLiteral = parts.map Part.isLiteral := by
  induction parts generalizing state with
  | nil => rfl
  | cons part rest ih =>
      cases part with
      | literal text => simp [inlinedParts, ih]
      | inline rule => simp [inlinedParts, ih, Part.isLiteral]
      | reference name link =>
          by_cases hlocal : isLocal name
          · rcases hanswer : resolve name state with ⟨_ | rule, next⟩ <;>
              simp [inlinedParts, hlocal, hanswer, ih, Part.isLiteral]
          · simp [inlinedParts, hlocal, ih]

@[simp] theorem length_inlinedChoices (choices : List (Choice ω)) (state : σ) :
    (inlinedChoices resolve choices state).1.length = choices.length := by
  induction choices generalizing state with
  | nil => rfl
  | cons choice rest ih =>
      obtain ⟨parts, _, _, _⟩ := choice
      simp [inlinedChoices, ih]

end Shape

variable [Weight ω]

-- A pass in which what has been resolved is well formed, with the names that
-- may stay.
def InliningPass.WellFormed (pass : InliningPass ω) : Prop :=
  ∀ name rule, pass.resolved.lookup name = some rule → rule.WellFormed (MayStay pass.reports)

-- A pass goes on to a well formed one, and no report is taken back.
structure InliningPass.GoesOnTo (pass next : InliningPass ω) : Prop where
  reports : pass.reports ⊆ next.reports
  wellFormed : next.WellFormed

theorem InliningPass.GoesOnTo.trans (pass middle next : InliningPass ω)
    (h : pass.GoesOnTo middle) (h' : middle.GoesOnTo next) : pass.GoesOnTo next :=
  ⟨List.Subset.trans h.reports h'.reports, h'.wellFormed⟩

-- A local name is resolved to a well formed rule, or it is reported.
def ResolvesWell (resolve : String → InliningPass ω → Option (Rule ω) × InliningPass ω) : Prop :=
  ∀ name pass, isLocal name → IsName name → pass.WellFormed →
    pass.GoesOnTo (resolve name pass).2 ∧
      (∀ rule, (resolve name pass).1 = some rule →
        rule.WellFormed (MayStay (resolve name pass).2.reports)) ∧
      ((resolve name pass).1 = none → MayStay (resolve name pass).2.reports name)

section Inlined

variable {resolve : String → InliningPass ω → Option (Rule ω) × InliningPass ω}

mutual

theorem Rule.wellFormed_inlined (h : ResolvesWell resolve) :
    ∀ (rule : Rule ω) (pass : InliningPass ω), pass.WellFormed → rule.WellFormed IsName →
      pass.GoesOnTo (rule.inlined resolve pass).2 ∧
        (rule.inlined resolve pass).1.WellFormed
          (MayStay (rule.inlined resolve pass).2.reports)
  | ⟨choices, _, _, _, _, _⟩, pass, hpass, ⟨⟨hsome, hfits⟩, hweight, hmark, hinner⟩ => by
      obtain ⟨hnext, hchoices⟩ := wellFormed_inlinedChoices h choices pass hpass hinner
      have hlength := length_inlinedChoices resolve choices pass
      refine ⟨hnext, ⟨?_, hfits.trans hlength.symm⟩, hweight, hmark, hchoices⟩
      exact List.ne_nil_of_length_pos (hlength ▸ List.length_pos_iff.mpr hsome)

theorem wellFormed_inlinedChoices (h : ResolvesWell resolve) :
    ∀ (choices : List (Choice ω)) (pass : InliningPass ω), pass.WellFormed →
      ChoicesWellFormed IsName choices →
      pass.GoesOnTo (inlinedChoices resolve choices pass).2 ∧
        ChoicesWellFormed (MayStay (inlinedChoices resolve choices pass).2.reports)
          (inlinedChoices resolve choices pass).1
  | [], _, hpass, _ => ⟨⟨List.Subset.refl _, hpass⟩, trivial⟩
  | ⟨parts, _, _, _⟩ :: rest, pass, hpass, ⟨⟨hapart, hinner, hweight⟩, hmore⟩ => by
      obtain ⟨hnext, hparts⟩ := wellFormed_inlinedParts h parts pass hpass hinner
      obtain ⟨hlast, hrest⟩ := wellFormed_inlinedChoices h rest _ hnext.wellFormed hmore
      refine ⟨hnext.trans _ _ _ hlast, ⟨?_, ?_, hweight⟩, hrest⟩
      · rwa [Apart, isLiteral_inlinedParts]
      · exact partsWellFormed_mono (MayStay.mono hlast.reports) _ hparts

theorem wellFormed_inlinedParts (h : ResolvesWell resolve) :
    ∀ (parts : List (Part ω)) (pass : InliningPass ω), pass.WellFormed →
      PartsWellFormed IsName parts →
      pass.GoesOnTo (inlinedParts resolve parts pass).2 ∧
        PartsWellFormed (MayStay (inlinedParts resolve parts pass).2.reports)
          (inlinedParts resolve parts pass).1
  | [], _, hpass, _ => ⟨⟨List.Subset.refl _, hpass⟩, trivial⟩
  | .literal _ :: rest, pass, hpass, ⟨htext, hmore⟩ => by
      obtain ⟨hlast, hrest⟩ := wellFormed_inlinedParts h rest pass hpass hmore
      exact ⟨hlast, htext, hrest⟩
  | .inline rule :: rest, pass, hpass, ⟨hinner, hmore⟩ => by
      obtain ⟨hnext, hrule⟩ := rule.wellFormed_inlined h pass hpass hinner
      obtain ⟨hlast, hrest⟩ := wellFormed_inlinedParts h rest _ hnext.wellFormed hmore
      exact ⟨hnext.trans _ _ _ hlast, Rule.WellFormed.mono (MayStay.mono hlast.reports) _ hrule,
        hrest⟩
  | .reference name _ :: rest, pass, hpass, ⟨⟨hname, hlink⟩, hmore⟩ => by
      by_cases hlocal : isLocal name
      · obtain ⟨hnext, hfound, hnone⟩ := h name pass hlocal hname hpass
        simp only [inlinedParts, hlocal, if_true]
        rcases hanswer : resolve name pass with ⟨_ | rule, next⟩ <;>
          rw [hanswer] at hnext hfound hnone
        · obtain ⟨hlast, hrest⟩ := wellFormed_inlinedParts h rest next hnext.wellFormed hmore
          exact ⟨hnext.trans _ _ _ hlast, ⟨(hnone rfl).mono hlast.reports, hlink⟩, hrest⟩
        · obtain ⟨hlast, hrest⟩ := wellFormed_inlinedParts h rest next hnext.wellFormed hmore
          exact ⟨hnext.trans _ _ _ hlast,
            Rule.WellFormed.mono (MayStay.mono hlast.reports) _ (hfound rule rfl), hrest⟩
      · obtain ⟨hlast, hrest⟩ := wellFormed_inlinedParts h rest pass hpass hmore
        simp only [inlinedParts, hlocal, Bool.false_eq_true, if_false]
        exact ⟨hlast, ⟨⟨hname, fun hother => absurd hother hlocal⟩, hlink⟩, hrest⟩

end

end Inlined

namespace Grammar

variable {grammar : Grammar ω} (h : grammar.WellFormed IsName)

include h

theorem WellFormed.resolvesWell (depth : Nat) (path : List String) :
    ResolvesWell (grammar.resolveLocal depth path) := by
  induction depth using Nat.strongRecOn generalizing path with
  | ind depth ih =>
      intro name pass hlocal hname hpass
      rcases grammar.resolveLocal_cases depth path name pass with
        ⟨rule, hrule, hresolve⟩ | ⟨report, hreport, hresolve⟩ |
          ⟨rule, less, hrule, rfl, _, hresolve⟩ <;> rw [hresolve]
      · refine ⟨⟨List.Subset.refl _, hpass⟩, ?_, nofun⟩
        rintro _ ⟨⟩
        exact hpass name rule hrule
      · have hsub : pass.reports ⊆ pass.reports ++ [report] := List.subset_append_left _ _
        refine ⟨⟨hsub, ?_⟩, nofun, fun _ => ⟨hname, fun _ => ?_⟩⟩
        · exact fun other found hfound =>
            Rule.WellFormed.mono (MayStay.mono hsub) _ (hpass other found hfound)
        · rcases hreport with rfl | rfl <;> simp
      · have hformed := h.rule? grammar name rule hrule
        obtain ⟨hnext, hinlined⟩ := Rule.wellFormed_inlined
          (ih less (Nat.lt_succ_self less) (name :: path)) rule pass hpass hformed
        refine ⟨⟨hnext.reports, ?_⟩, ?_, nofun⟩
        · intro other found hfound
          rw [List.lookup_cons] at hfound
          split at hfound
          · exact Option.some.inj hfound ▸ hinlined
          · exact hnext.wellFormed other found hfound
        · rintro _ ⟨⟩
          exact hinlined

theorem WellFormed.inlineAssignments (assignments : List (Assignment ω)) (pass : InliningPass ω)
    (hassignments : ∀ assignment ∈ assignments, assignment.rule.WellFormed IsName)
    (hpass : pass.WellFormed) :
    pass.GoesOnTo (grammar.inlineAssignments assignments pass).2 ∧
      ∀ assignment ∈ (grammar.inlineAssignments assignments pass).1,
        assignment.rule.WellFormed
          (MayStay (grammar.inlineAssignments assignments pass).2.reports) := by
  induction assignments generalizing pass with
  | nil => exact ⟨⟨List.Subset.refl _, hpass⟩, List.forall_mem_nil _⟩
  | cons assignment rest ih =>
      obtain ⟨name, rule⟩ := assignment
      obtain ⟨hrule, hrest⟩ := List.forall_mem_cons.mp hassignments
      rw [Grammar.inlineAssignments]
      split
      · exact ih pass hrest hpass
      · obtain ⟨hnext, hinlined⟩ :=
          Rule.wellFormed_inlined (h.resolvesWell _ []) rule pass hpass hrule
        obtain ⟨hlast, hmore⟩ := ih _ hrest hnext.wellFormed
        refine ⟨hnext.trans _ _ _ hlast, List.forall_mem_cons.mpr ⟨?_, hmore⟩⟩
        exact Rule.WellFormed.mono (MayStay.mono hlast.reports) _ hinlined

-- Inlining leaves a local name in a rule only if that is reported.
theorem WellFormed.inlineLocals :
    grammar.inlineLocals.1.WellFormed (MayStay grammar.inlineLocals.2) ∧
      ∀ name ∈ grammar.inlineLocals.1.names, ¬ isLocal name := by
  have hnames := grammar.names_inlineLocals
  refine ⟨⟨?_, ?_, ?_, rfl, h.passes⟩, ?_⟩
  · rw [hnames]
    exact h.nodup.filter _
  · rw [hnames]
    exact fun name hname => h.isName name (List.mem_of_mem_filter hname)
  · exact (h.inlineAssignments grammar.assignments ⟨[], []⟩ h.rules nofun).2
  · rw [hnames]
    intro name hname
    simpa using List.of_mem_filter hname

end Grammar

end PhraseGrammar
