import Mathlib.Data.Set.Card
import PhraseGrammar.Proofs.Derivation.Following
import PhraseGrammar.Proofs.Selection.Spans

namespace PhraseGrammar.Grammar

-- Generation from the source follows a derivation of the start: it draws a
-- number for each real choice, in order, and comes to the text of the
-- derivation in every context.
structure Follows {ω : Type} [Weight ω] (grammar : Grammar ω) (equalizeAll : Bool)
    (source : Source ω) (derivation : Derivation ω) : Prop where
  derives : ∃ rule, grammar.startRule? = some rule ∧ grammar.Derives rule derivation
  decides : source.Decides equalizeAll derivation.choicePoints
  delivers (context : Context) : Delivers source (realChoices derivation.choicePoints).length
    (derivation.yield context) (grammar.generate context equalizeAll source)

section Forward

variable {ω : Type} [Weight ω] {grammar : Grammar ω} {start : Nat} (h : grammar.Reachable)
  (hstart : grammar.start = some start)

include h hstart

theorem Reachable.exists_startRule : ∃ rule, grammar.startRule? = some rule := by
  obtain ⟨rule, hat, _⟩ := h.induction_on_links hstart (fun _ _ _ => True)
    (fun _ _ _ _ _ _ => trivial) start .refl
  exact ⟨rule, by rw [startRule?, hstart]; exact hat⟩

-- Generation from the start follows the links, and each rule takes the choices
-- of a derivation.
theorem Reachable.traced_startRule (equalizeAll : Bool) (rule : Rule ω)
    (hrule : grammar.startRule? = some rule) :
    grammar.Traced equalizeAll rule fun context => grammar.generate context equalizeAll := by
  have htraced := h.induction_on_links hstart
    (fun depth index rule => grammar.Traced equalizeAll rule fun context =>
      grammar.generateAt context equalizeAll depth index) ?_ start .refl
  · obtain ⟨linked, hat, htraced⟩ := htraced
    rw [startRule?, hstart] at hrule
    obtain rfl : rule = linked := Option.some.inj (hrule.symm.trans hat)
    simp only [generate, hstart]
    exact htraced
  · intro depth index rule hat hnested hlinks
    simp only [generateAt, hat]
    refine traced_rule (fun context => grammar.generateAt context equalizeAll depth) rule ?_ hlinks
    exact fun inner hinner => (hnested inner hinner).2.length_table

theorem Reachable.exists_follows (equalizeAll : Bool) (source : Source ω) :
    ∃ derivation, grammar.Follows equalizeAll source derivation ∧
      ∀ rule other, grammar.startRule? = some rule → grammar.Derives rule other →
        source.Decides equalizeAll other.choicePoints → other = derivation := by
  obtain ⟨rule, hrule⟩ := h.exists_startRule hstart
  obtain ⟨derivation, hderives, hdecides, hdelivers⟩ :=
    h.traced_startRule hstart equalizeAll rule hrule source
  refine ⟨derivation, ⟨⟨rule, hrule, hderives⟩, hdecides, hdelivers⟩, ?_⟩
  intro again other hagain hother hsame
  obtain rfl : rule = again := Option.some.inj (hrule.symm.trans hagain)
  have hbelow := Below.startRule hstart rule hrule
  exact hother.eq_of_decides equalizeAll rule other hbelow derivation hderives source hsame hdecides

-- Each phrase is the text of a derivation.
theorem Reachable.encard_phrases_le
    (hchoices : ∀ inner, grammar.Below start inner → inner.choices ≠ []) (rule : Rule ω)
    (hrule : grammar.startRule? = some rule) (context : Context) :
    {phrase | ∃ equalizeAll source,
      (grammar.generate context equalizeAll source).1 = .ok phrase}.encard ≤
        (grammar.derivations rule).length := by
  have hbelow := Below.startRule hstart rule hrule
  let texts := (grammar.derivations rule).filterMap fun derivation =>
    (derivation.yield context).toOption
  have hsub : {phrase | ∃ equalizeAll source,
      (grammar.generate context equalizeAll source).1 = .ok phrase} ⊆ texts.toFinset := by
    rintro phrase ⟨equalizeAll, source, hphrase⟩
    obtain ⟨derivation, ⟨⟨again, hagain, hderives⟩, _, hdelivers⟩, _⟩ :=
      h.exists_follows hstart equalizeAll source
    obtain rfl : rule = again := Option.some.inj (hrule.symm.trans hagain)
    have hmem : derivation ∈ grammar.derivations rule :=
      ((h.enumerates hstart rule hbelow).mem_iff derivation).mpr
        ⟨hderives, hderives.complete hchoices rule derivation hbelow⟩
    have hyield := (hdelivers context).eq_ok phrase hphrase
    exact List.mem_toFinset.mpr (List.mem_filterMap.mpr ⟨derivation, hmem, by rw [hyield]; rfl⟩)
  calc Set.encard _ ≤ (texts.toFinset : Set String).encard := Set.encard_le_encard hsub
    _ = texts.toFinset.card := Set.encard_coe_eq_coe_finsetCard _
    _ ≤ texts.length := Nat.cast_le.mpr texts.toFinset_card_le
    _ ≤ (grammar.derivations rule).length := Nat.cast_le.mpr (List.length_filterMap_le _ _)

end Forward

section Converse

variable {grammar : Grammar Rat} {start : Nat} (h : grammar.Reachable)
  (hstart : grammar.start = some start)

-- The source whose numbers fall on the given choices, when all choices have
-- the same chance.
def sourceOf (points : List (Rule Rat × Nat)) : Source Rat :=
  .ofStream fun place =>
    ((realChoices points)[place]?.map fun point => (point.2 / point.1.choices.length : Rat)).getD 0

theorem sourceOf_mem_unit (points : List (Rule Rat × Nat))
    (hpoints : ∀ point ∈ points, point.2 < point.1.choices.length) (place : Nat) :
    0 ≤ (sourceOf points).stream place ∧ (sourceOf points).stream place < 1 := by
  cases hpoint : (realChoices points)[place]? with
  | none => simp [sourceOf, Source.ofStream, hpoint]
  | some point =>
      have hlt := hpoints point (List.mem_of_mem_filter (List.mem_of_getElem? hpoint))
      simp only [sourceOf, Source.ofStream, hpoint, Option.map_some, Option.getD_some]
      have hpositive : (0 : Rat) < point.1.choices.length := Nat.cast_pos.mpr (by omega)
      exact ⟨div_nonneg (Nat.cast_nonneg _) hpositive.le,
        (div_lt_one₀ hpositive).mpr (Nat.cast_lt.mpr hlt)⟩

theorem sourceOf_decides (points : List (Rule Rat × Nat))
    (hpoints : ∀ point ∈ points, point.2 < point.1.choices.length)
    (hfits : ∀ point ∈ points, point.1.table.length = point.1.choices.length) :
    (sourceOf points).Decides true points := by
  intro place point hpoint
  have hmem := List.mem_of_mem_filter (List.mem_of_getElem? hpoint)
  have hlt := hpoints point hmem
  simp only [sourceOf, Source.ofStream, Nat.zero_add, hpoint, Option.map_some, Option.getD_some,
    Bool.or_true]
  rw [← hfits point hmem] at hlt ⊢
  exact (entryAt_fraction point.1.table point.2 hlt).symm

include h hstart

theorem Reachable.exists_source (rule : Rule Rat) (hrule : grammar.startRule? = some rule)
    (derivation : Derivation Rat) (hderives : grammar.Derives rule derivation) :
    ∃ source : Source Rat, (∀ place, 0 ≤ source.stream place ∧ source.stream place < 1) ∧
      grammar.Follows true source derivation := by
  have hbelow := Below.startRule hstart rule hrule
  have hpoints := hderives.choicePoints_below rule derivation hbelow
  have hdecides : (sourceOf derivation.choicePoints).Decides true derivation.choicePoints := by
    refine sourceOf_decides _ (fun point hpoint => (hpoints point hpoint).2) fun point hpoint => ?_
    exact (h.tallied hstart point.1 (hpoints point hpoint).1).length_table
  obtain ⟨other, hfollows, hunique⟩ :=
    h.exists_follows hstart true (sourceOf derivation.choicePoints)
  obtain rfl := hunique rule derivation hrule hderives hdecides
  exact ⟨_, sourceOf_mem_unit _ fun point hpoint => (hpoints point hpoint).2, hfollows⟩

end Converse

-- Generation follows exactly one derivation of the start, whatever the numbers
-- are, and with equal chances it can follow any. So there are no more phrases
-- than derivations where no rule is without choices.
theorem generate_follows_derivation :
    (∀ (ω : Type) [Weight ω] (grammar : Grammar ω) (start : Nat), grammar.Reachable →
      grammar.start = some start →
        (∀ equalizeAll source, ∃ derivation, grammar.Follows equalizeAll source derivation ∧
          ∀ rule other, grammar.startRule? = some rule → grammar.Derives rule other →
            source.Decides equalizeAll other.choicePoints → other = derivation) ∧
        ((∀ inner, grammar.Below start inner → inner.choices ≠ []) →
          ∃ rule all, grammar.startRule? = some rule ∧ grammar.Enumerates rule all ∧
            ∀ context, {phrase | ∃ equalizeAll source,
              (grammar.generate context equalizeAll source).1 = .ok phrase}.encard ≤ all.length)) ∧
    ∀ (grammar : Grammar Rat) (start : Nat), grammar.Reachable → grammar.start = some start →
      ∀ rule derivation, grammar.startRule? = some rule → grammar.Derives rule derivation →
        ∃ source : Source Rat, (∀ place, 0 ≤ source.stream place ∧ source.stream place < 1) ∧
          grammar.Follows true source derivation := by
  constructor
  · intro ω _ grammar start h hstart
    refine ⟨h.exists_follows hstart, fun hchoices => ?_⟩
    obtain ⟨rule, hrule⟩ := h.exists_startRule hstart
    have hbelow := Below.startRule hstart rule hrule
    exact ⟨rule, grammar.derivations rule, hrule, h.enumerates hstart rule hbelow,
      h.encard_phrases_le hstart hchoices rule hrule⟩
  · intro grammar start h hstart rule derivation hrule hderives
    exact h.exists_source hstart rule hrule derivation hderives

-- A call with a rule inside another, a name of the context, and an ending that
-- is put to the whole.
def call : Grammar Rat :=
  let exclaim : Transform := ⟨"exclaim", fun text => .ok (text ++ "!")⟩
  let inner : Rule Rat := .ofChoices [Choice.empty.push (.literal "hey")] false [] none
  let main : Rule Rat :=
    .ofChoices [((Choice.empty.push (.reference "greeting" none)).push (.literal " ")).push
      (.reference "who" none), Choice.empty.push (.literal "bye")] false [exclaim] none
  let greeting : Rule Rat :=
    .ofChoices [Choice.empty.push (.literal "hi"), Choice.empty.push (.inline inner)] true [] none
  (((empty.insert "main" main).1.insert "greeting" greeting).1.bind "main").1

theorem generate_call_follows :
    call.Reachable ∧ call.start = some 0 ∧
      (∃ derivation, call.Follows false (.ofList [1 / 2, 1 / 2]) derivation ∧
        derivation.yield (.ofList [("who", "you")]) = .ok "hey you!") ∧
      ∃ rule source, call.startRule? = some rule ∧
        (∀ place, 0 ≤ source.stream place ∧ source.stream place < 1) ∧
        call.Follows true source (.choice rule 1 [.literal "bye"]) := by
  have hcall : call.Reachable := .bind _ _ (.insert _ _ _ (.insert _ _ _ .empty))
  have hstart : call.start = some 0 := by decide
  have hphrase : (call.generate (.ofList [("who", "you")]) false (.ofList [1 / 2, 1 / 2])).1 =
      .ok "hey you!" := by decide +kernel
  obtain ⟨derivation, hfollows, _⟩ :=
    (generate_follows_derivation.1 Rat call 0 hcall hstart).1 false (.ofList [1 / 2, 1 / 2])
  obtain ⟨rule, hrule, hderives⟩ : ∃ rule, call.startRule? = some rule ∧
      call.Derives rule (.choice rule 1 [.literal "bye"]) :=
    ⟨_, rfl, .choice _ 1 _ _ rfl (.literal "bye" [] [] .nil)⟩
  obtain ⟨source, hunit, hagain⟩ :=
    generate_follows_derivation.2 call 0 hcall hstart rule _ hrule hderives
  exact ⟨hcall, hstart, ⟨derivation, hfollows, (hfollows.delivers _).eq_ok _ hphrase⟩, rule, source,
    hrule, hunit, hagain⟩

end PhraseGrammar.Grammar
