import PhraseGrammar.Proofs.Derivation.Enumeration
import PhraseGrammar.Proofs.Derivation.Yield

namespace PhraseGrammar

variable {ω : Type} [Weight ω]

section Generate

variable (follow : Nat → Generation ω String) (context : Context) (equalizeAll : Bool)

theorem generateChoice_eq (choices : List (Choice ω)) (index : Nat) (choice : Choice ω)
    (h : choices[index]? = some choice) :
    generateChoice follow context equalizeAll choices index =
      generateParts follow context equalizeAll choice.parts := by
  induction choices generalizing index with
  | nil => simp at h
  | cons first rest ih =>
      cases index with
      | zero =>
          obtain rfl := Option.some.inj h
          cases first
          rfl
      | succ index =>
          rw [generateChoice]
          exact ih index h

theorem Rule.generate_eq (rule : Rule ω) :
    rule.generate follow context equalizeAll = (do
      match ← Generation.select rule.table (rule.equalized || equalizeAll) with
      | none => Generation.transform rule.substitutions ""
      | some index =>
          generateChoice follow context equalizeAll rule.choices index >>=
            Generation.transform rule.substitutions) := by
  cases rule
  rfl

variable (source after : Source ω)

theorem Rule.generate_of_none (rule : Rule ω)
    (h : selectEntry rule.table (rule.equalized || equalizeAll) source = (none, after)) :
    rule.generate follow context equalizeAll source =
      Generation.transform rule.substitutions "" after := by
  rw [Rule.generate_eq, Generation.bind_apply]
  simp only [Generation.select, h]

theorem Rule.generate_of_some (rule : Rule ω) (index : Nat) (choice : Choice ω)
    (h : selectEntry rule.table (rule.equalized || equalizeAll) source = (some index, after))
    (hchoice : rule.choices[index]? = some choice) :
    rule.generate follow context equalizeAll source =
      (generateParts follow context equalizeAll choice.parts >>=
        Generation.transform rule.substitutions) after := by
  rw [Rule.generate_eq, Generation.bind_apply]
  simp only [Generation.select, h, generateChoice_eq _ _ _ _ _ _ hchoice]

end Generate

namespace Grammar

section Traced

variable (grammar : Grammar ω) (equalizeAll : Bool)

-- From every source, generation takes the choices of one derivation of the
-- rule, whatever the context is.
def Traced (rule : Rule ω) (run : Context → Generation ω String) : Prop :=
  ∀ source : Source ω, ∃ derivation, grammar.Derives rule derivation ∧
    source.Decides equalizeAll derivation.choicePoints ∧
    ∀ context, Delivers source (realChoices derivation.choicePoints).length
      (derivation.yield context) (run context source)

def TracedParts (parts : List (Part ω)) (run : Context → Generation ω String) : Prop :=
  ∀ source : Source ω, ∃ pieces, grammar.Expands parts pieces ∧
    source.Decides equalizeAll (choicePointsOfPieces pieces) ∧
    ∀ context, Delivers source (realChoices (choicePointsOfPieces pieces)).length
      (yieldOfPieces context pieces) (run context source)

variable {grammar equalizeAll}

theorem TracedParts.literal (parts : List (Part ω)) (run : Context → Generation ω String)
    (h : grammar.TracedParts equalizeAll parts run) (text : String) :
    grammar.TracedParts equalizeAll (.literal text :: parts)
      fun context => do return text ++ (← run context) := by
  intro source
  obtain ⟨pieces, hpieces, hdecides, hdelivers⟩ := h source
  exact ⟨.literal text :: pieces, .literal text parts pieces hpieces, hdecides,
    fun context => (hdelivers context).after text (run context)⟩

theorem TracedParts.outside (parts : List (Part ω)) (run : Context → Generation ω String)
    (h : grammar.TracedParts equalizeAll parts run) (name : String) :
    grammar.TracedParts equalizeAll (.reference name none :: parts)
      fun context => do return (context name).getD name ++ (← run context) := by
  intro source
  obtain ⟨pieces, hpieces, hdecides, hdelivers⟩ := h source
  exact ⟨.outside name :: pieces, .outside name parts pieces hpieces, hdecides,
    fun context => (hdelivers context).after _ (run context)⟩

theorem TracedParts.rule (parts : List (Part ω)) (run first : Context → Generation ω String)
    (h : grammar.TracedParts equalizeAll parts run) (part : Part ω) (rule : Rule ω)
    (hpart : grammar.ruleOf? part = some rule) (hfirst : grammar.Traced equalizeAll rule first) :
    grammar.TracedParts equalizeAll (part :: parts)
      fun context => do return (← first context) ++ (← run context) := by
  intro source
  obtain ⟨derivation, hderives, hdecides, hdelivers⟩ := hfirst source
  obtain ⟨pieces, hpieces, hmore, hrest⟩ :=
    h (source.skip (realChoices derivation.choicePoints).length)
  refine ⟨.derived derivation :: pieces,
    .derived part rule derivation parts pieces hpart hderives hpieces, ?_, fun context => ?_⟩
  · exact (source.decides_append equalizeAll _ _).mpr ⟨hdecides, hmore⟩
  · simp only [choicePointsOfPieces, realChoices_append, List.length_append]
    exact (hdelivers context).append (first context) (run context) _ _ (hrest context)

theorem Traced.generate (rule : Rule ω) (hfits : rule.table.length = rule.choices.length)
    (follow : Context → Nat → Generation ω String)
    (h : ∀ choice ∈ rule.choices, grammar.TracedParts equalizeAll choice.parts
      fun context => generateParts (follow context) context equalizeAll choice.parts) :
    grammar.Traced equalizeAll rule
      fun context => rule.generate (follow context) context equalizeAll := by
  intro source
  rcases hselect : selectEntry rule.table (rule.equalized || equalizeAll) source with
    ⟨_ | index, after⟩
  · have htable : rule.table = [] :=
      (selectEntry_eq_none_iff _ (rule.equalized || equalizeAll) source).mp
        (congrArg Prod.fst hselect)
    have hchoices : rule.choices = [] := by
      rwa [htable, List.length_nil, eq_comm, List.length_eq_zero_iff] at hfits
    obtain rfl : source = after := by
      rw [htable] at hselect
      exact (Prod.mk.inj hselect).2
    refine ⟨.nothing rule, .nothing rule hchoices, source.decides_nil equalizeAll, ?_⟩
    intro context
    simp only [rule.generate_of_none (follow context) context equalizeAll source source hselect]
    exact delivers_transform rule.substitutions ""
  · have hindex : index < rule.choices.length :=
      hfits ▸ selectEntry_lt _ _ source index (congrArg Prod.fst hselect)
    have hchoice : rule.choices[index]? = some rule.choices[index] :=
      List.getElem?_eq_getElem hindex
    obtain ⟨hdecides, rfl⟩ := source.decides_selectEntry after equalizeAll rule hfits index hselect
    obtain ⟨pieces, hpieces, hmore, hdelivers⟩ := h _ (List.getElem_mem hindex)
      (source.skip (realChoices [(rule, index)]).length)
    refine ⟨.choice rule index pieces, .choice rule index _ pieces hchoice hpieces, ?_, ?_⟩
    · exact (source.decides_append equalizeAll [(rule, index)] _).mpr ⟨hdecides, hmore⟩
    · intro context
      simp only [rule.generate_of_some (follow context) context equalizeAll source _ index _ hselect
        hchoice]
      rw [Derivation.choicePoints, ← List.singleton_append, realChoices_append, List.length_append]
      exact .of_skip _ ((hdelivers context).transform _ rule.substitutions)

variable (follow : Context → Nat → Generation ω String)

mutual

theorem traced_rule : ∀ rule : Rule ω,
    (∀ inner ∈ rule.nested, inner.table.length = inner.choices.length) →
    grammar.LinksHold (fun index linked =>
      grammar.Traced equalizeAll linked fun context => follow context index) rule.references →
    grammar.Traced equalizeAll rule
      fun context => rule.generate (follow context) context equalizeAll
  | ⟨choices, table, equalized, substitutions, fixedWeight, mark⟩, hnested, hlinks => by
      simp only [Rule.nested, List.mem_cons, forall_eq_or_imp] at hnested
      exact .generate _ hnested.1 follow (traced_choices choices hnested.2 hlinks)

theorem traced_choices : ∀ choices : List (Choice ω),
    (∀ inner ∈ nestedInChoices choices, inner.table.length = inner.choices.length) →
    grammar.LinksHold (fun index linked =>
      grammar.Traced equalizeAll linked fun context => follow context index)
      (referencesOfChoices choices) →
    ∀ choice ∈ choices, grammar.TracedParts equalizeAll choice.parts
      fun context => generateParts (follow context) context equalizeAll choice.parts
  | [], _, _, _, hchoice => absurd hchoice List.not_mem_nil
  | ⟨parts, _, _, _⟩ :: rest, hnested, hlinks, choice, hchoice => by
      rcases List.mem_cons.mp hchoice with rfl | hrest
      · exact traced_parts parts (fun inner hinner => hnested inner (List.mem_append_left _ hinner))
          hlinks.left
      · exact traced_choices rest
          (fun inner hinner => hnested inner (List.mem_append_right _ hinner)) hlinks.right choice
          hrest

theorem traced_parts : ∀ parts : List (Part ω),
    (∀ inner ∈ nestedInParts parts, inner.table.length = inner.choices.length) →
    grammar.LinksHold (fun index linked =>
      grammar.Traced equalizeAll linked fun context => follow context index)
      (referencesOfParts parts) →
    grammar.TracedParts equalizeAll parts
      fun context => generateParts (follow context) context equalizeAll parts
  | [], _, _ => fun source => ⟨[], .nil, source.decides_nil equalizeAll, fun _ => rfl⟩
  | .literal text :: rest, hnested, hlinks =>
      (traced_parts rest hnested hlinks).literal rest _ text
  | .reference name none :: rest, hnested, hlinks =>
      (traced_parts rest hnested hlinks.tail).outside rest _ name
  | .reference name (some index) :: rest, hnested, hlinks => by
      obtain ⟨linked, hlinked, htraced⟩ := hlinks name index List.mem_cons_self
      exact (traced_parts rest hnested hlinks.tail).rule rest _ _ (.reference name (some index))
        linked hlinked htraced
  | .inline rule :: rest, hnested, hlinks =>
      (traced_parts rest (fun inner hinner => hnested inner (List.mem_append_right _ hinner))
        hlinks.right).rule rest _ _ (.inline rule) rule rfl
        (traced_rule rule (fun inner hinner => hnested inner (List.mem_append_left _ hinner))
          hlinks.left)

end

end Traced

variable {grammar : Grammar ω} {start : Nat}

-- A source decides for no more than one derivation of a rule.
theorem Derives.eq_of_decides (equalizeAll : Bool) (rule : Rule ω) (derivation : Derivation ω)
    (h : grammar.Derives rule derivation) (hrule : grammar.Below start rule)
    (other : Derivation ω) (hother : grammar.Derives rule other) (source : Source ω)
    (hdecides : source.Decides equalizeAll derivation.choicePoints)
    (hagain : source.Decides equalizeAll other.choicePoints) : derivation = other := by
  refine h.induction_below
    (P := fun rule derivation => ∀ (other : Derivation ω) (source : Source ω),
      grammar.Derives rule other →
      source.Decides equalizeAll derivation.choicePoints →
      source.Decides equalizeAll other.choicePoints → derivation = other)
    (Q := fun parts pieces => ∀ (others : List (Piece ω)) (source : Source ω),
      grammar.Expands parts others →
      source.Decides equalizeAll (choicePointsOfPieces pieces) →
      source.Decides equalizeAll (choicePointsOfPieces others) → pieces = others)
    ?nothing ?choice ?nil ?literal ?outside ?derived rule derivation hrule other source hother
    hdecides hagain
  case nothing =>
    intro rule _ hnone other source hother _ _
    cases hother with
    | nothing => rfl
    | choice _ _ _ _ hchoice => simp [hnone] at hchoice
  case choice =>
    intro rule index choice pieces _ hchoice _ ih other source hother hdecides hagain
    cases hother with
    | nothing _ hnone => simp [hnone] at hchoice
    | choice _ place option others hoption hothers =>
        obtain ⟨hindex, hpieces⟩ :=
          (source.decides_append equalizeAll [(rule, index)] _).mp hdecides
        obtain ⟨hplace, hmore⟩ := (source.decides_append equalizeAll [(rule, place)] _).mp hagain
        rw [Source.decides_singleton_iff] at hindex hplace
        have hlt := (List.getElem?_eq_some_iff.mp hchoice).1
        have hother := (List.getElem?_eq_some_iff.mp hoption).1
        obtain rfl : index = place := by
          by_cases hreal : 2 ≤ rule.choices.length
          · exact (hindex hreal).trans (hplace hreal).symm
          · omega
        obtain rfl : choice = option := Option.some.inj (hchoice.symm.trans hoption)
        rw [ih others _ hothers hpieces hmore]
  case nil => exact fun others _ hothers _ _ => (expands_nil_iff.mp hothers).symm
  case literal =>
    intro text parts pieces ih others source hothers hdecides hagain
    obtain ⟨more, hmore, rfl⟩ := (expands_literal_iff text).mp hothers
    rw [ih more source hmore hdecides hagain]
  case outside =>
    intro name parts pieces ih others source hothers hdecides hagain
    obtain ⟨more, hmore, rfl⟩ := (expands_outside_iff name).mp hothers
    rw [ih more source hmore hdecides hagain]
  case derived =>
    intro part rule derivation parts pieces hpart _ _ hfirst hrest others source hothers hdecides
      hagain
    obtain ⟨next, more, hnext, hmore, rfl⟩ := (expands_rule_iff part rule hpart).mp hothers
    obtain ⟨hone, htwo⟩ := (source.decides_append equalizeAll _ _).mp hdecides
    obtain ⟨hother, hthen⟩ := (source.decides_append equalizeAll _ _).mp hagain
    obtain rfl := hfirst next source hnext hone hother
    rw [hrest more _ hmore htwo hthen]

end Grammar

end PhraseGrammar
