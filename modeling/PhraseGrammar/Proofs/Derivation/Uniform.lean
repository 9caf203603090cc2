import PhraseGrammar.Proofs.Derivation.NonNegative

namespace PhraseGrammar

-- There is a choice to take, and nothing changes the chances of the choices.
structure Rule.Plain {ω : Type} (rule : Rule ω) : Prop where
  fixedWeight : rule.fixedWeight = none
  equalized : rule.equalized = false
  choices_ne_nil : rule.choices ≠ []
  weights (choice : Choice ω) (hchoice : choice ∈ rule.choices) : choice.fixedWeight = none

instance (rule : Rule Rat) : Decidable rule.Plain :=
  decidable_of_iff (rule.fixedWeight = none ∧ rule.equalized = false ∧ rule.choices ≠ [] ∧
      ∀ choice ∈ rule.choices, choice.fixedWeight = none)
    ⟨fun ⟨hfixed, hequalized, hchoices, hweights⟩ => ⟨hfixed, hequalized, hchoices, hweights⟩,
      fun h => ⟨h.fixedWeight, h.equalized, h.choices_ne_nil, h.weights⟩⟩

-- What the start of the grammar leads to is plain.
def Grammar.Plain {ω : Type} (grammar : Grammar ω) : Prop :=
  ∀ start rule, grammar.start = some start → grammar.Below start rule → rule.Plain

-- The part of a rule's total that the choice at a place has.
def Rule.share (rule : Rule Rat) (place : Nat) : Rat :=
  (rule.choices[place]?.map Choice.weight).getD 0 / rule.total

def chanceOf (points : List (Rule Rat × Nat)) : Rat :=
  (points.map fun point => point.1.share point.2).prod

-- The chance of a derivation is the product of those of its choices.
def Derivation.chance (derivation : Derivation Rat) : Rat :=
  chanceOf derivation.choicePoints

-- Each choice has its share of the numbers that are drawn for it.
def Derivation.Fair (equalizeAll : Bool) (derivation : Derivation Rat) : Prop :=
  ∀ point ∈ derivation.choicePoints,
    Spans point.1.table (point.1.equalized || equalizeAll) point.2 (point.1.share point.2)

-- The part of an ensemble's weight that the member at a place has.
def Ensemble.share (ensemble : Ensemble Rat) (place : Nat) : Rat :=
  (ensemble.weights[place]?).getD 0 / ensemble.weight

@[simp] theorem chanceOf_append (left right : List (Rule Rat × Nat)) :
    chanceOf (left ++ right) = chanceOf left * chanceOf right := by
  rw [chanceOf, List.map_append, List.prod_append, chanceOf, chanceOf]

namespace Grammar

variable {grammar : Grammar Rat} {start : Nat}

-- Nothing is fixed in a plain grammar, so nothing is below zero.
theorem Plain.nonNegative (hplain : grammar.Plain) : grammar.NonNegative := by
  intro start rule hstart hrule
  have hrule := hplain start rule hstart hrule
  constructor
  · intro weight hweight
    exact nomatch hrule.fixedWeight.symm.trans hweight
  · intro choice hchoice weight hweight
    exact nomatch (hrule.weights choice hchoice).symm.trans hweight

theorem Tallied.weight_sum (rule : Rule Rat) (h : grammar.Tallied rule)
    (hplain : rule.fixedWeight = none) : rule.weight = (rule.choices.map Choice.weight).sum := by
  rw [h.weight_eq_getD_sum rule, hplain, Option.getD_none]

-- Plain weights are numbers of derivations.
theorem counting_weights (grammar : Grammar Rat) :
    grammar.Counting Rule.Plain fun tally count => tally.weight = count where
  one := Nat.cast_one.symm
  times left right m n hleft hright := by
    rw [Tally.times, hleft, hright, Nat.cast_mul]
  rule rule htallied hplain count hcount := by
    have hweights : rule.choices.map Choice.weight =
        (rule.choices.map count).map Nat.cast := by
      rw [List.map_map]
      refine List.map_congr_left fun choice hchoice => ?_
      rw [Choice.weight, hplain.weights choice hchoice]
      exact hcount choice hchoice
    rw [Rule.tally, htallied.weight_sum rule hplain.fixedWeight, hweights, Nat.cast_list_sum]

variable (h : grammar.Reachable) (hstart : grammar.start = some start) (hplain : grammar.Plain)

include h hstart hplain

theorem Plain.weight_eq_length (rule : Rule Rat) (hrule : grammar.Below start rule) :
    rule.weight = (grammar.derivations rule).length :=
  (counting_weights grammar).reads_derivations h hstart (fun inner => hplain start inner hstart)
    rule hrule

theorem Plain.mem_derivations_iff (rule : Rule Rat) (hrule : grammar.Below start rule)
    (derivation : Derivation Rat) :
    derivation ∈ grammar.derivations rule ↔ grammar.Derives rule derivation := by
  rw [(h.enumerates hstart rule hrule).mem_iff]
  refine and_iff_left_of_imp fun hderives => hderives.complete (fun inner hinner => ?_) _ _ hrule
  exact (hplain start inner hstart hinner).choices_ne_nil

theorem Plain.weight_pos (rule : Rule Rat) (hrule : grammar.Below start rule)
    (derivation : Derivation Rat) (hderives : grammar.Derives rule derivation) :
    0 < rule.weight := by
  have hmem := (hplain.mem_derivations_iff h hstart rule hrule derivation).mpr hderives
  rw [hplain.weight_eq_length h hstart rule hrule]
  exact Nat.cast_pos.mpr (List.length_pos_of_mem hmem)

-- The chance of a derivation makes up for the weight of its rule, as those of
-- the pieces do for what the parts contribute.
theorem Plain.chance_mul_weight (rule : Rule Rat) (derivation : Derivation Rat)
    (hderives : grammar.Derives rule derivation) (hrule : grammar.Below start rule) :
    derivation.chance * rule.weight = 1 := by
  refine hderives.induction_below (P := fun rule derivation => derivation.chance * rule.weight = 1)
    (Q := fun parts pieces => ∀ tally : Tally Rat, chanceOf (choicePointsOfPieces pieces) *
      (grammar.tallyFrom tally parts).weight = tally.weight)
    ?nothing ?choice ?nil ?literal ?outside ?derived rule derivation hrule
  case nothing =>
    intro rule hrule hnone
    exact absurd hnone (hplain start rule hstart hrule).choices_ne_nil
  case choice =>
    intro rule place choice pieces hrule hchoice hpieces ih
    have hown := hplain start rule hstart hrule
    have hmem := List.mem_of_getElem? hchoice
    have htally := (h.tallied hstart rule hrule).choice choice hmem
    have hproduct : chanceOf (choicePointsOfPieces pieces) * choice.weight = 1 := by
      rw [Choice.weight, hown.weights choice hmem, Option.getD_none]
      exact (congrArg (_ * ·) (congrArg Tally.weight htally)).trans (ih Tally.one)
    have hderives := Derives.choice rule place choice pieces hchoice hpieces
    have hpositive : rule.weight ≠ 0 :=
      (hplain.weight_pos h hstart rule hrule _ hderives).ne'
    have hshare : rule.share place * rule.weight = choice.weight := by
      rw [Rule.weight, hown.fixedWeight, Option.getD_none] at hpositive ⊢
      rw [Rule.share, hchoice, Option.map_some, Option.getD_some, div_mul_cancel₀ _ hpositive]
    calc (Derivation.choice rule place pieces).chance * rule.weight
        = rule.share place * rule.weight * chanceOf (choicePointsOfPieces pieces) := by
          rw [Derivation.chance, Derivation.choicePoints, chanceOf, List.map_cons, List.prod_cons,
            mul_right_comm]
          rfl
      _ = chanceOf (choicePointsOfPieces pieces) * choice.weight := by rw [hshare, mul_comm]
      _ = 1 := hproduct
  case nil => exact fun tally => one_mul _
  case literal =>
    intro text parts pieces ih tally
    rw [tallyFrom_skip _ _ _ _ rfl]
    exact ih tally
  case outside =>
    intro name parts pieces ih tally
    rw [tallyFrom_skip _ _ _ _ rfl]
    exact ih tally
  case derived =>
    intro part rule derivation parts pieces hpart _ _ hfirst hrest tally
    rw [tallyFrom_rule _ _ _ _ rule hpart, choicePointsOfPieces, chanceOf_append, mul_assoc, hrest]
    calc derivation.chance * (tally.times rule.tally).weight
        = tally.weight * (derivation.chance * rule.weight) := mul_left_comm _ _ _
      _ = tally.weight := by rw [hfirst, mul_one]

theorem Plain.spans_table (rule : Rule Rat) (hrule : grammar.Below start rule)
    (hpositive : 0 < rule.weight) (place : Nat) (choice : Choice Rat)
    (hchoice : rule.choices[place]? = some choice) :
    Spans rule.table false place (rule.share place) := by
  have htallied := h.tallied hstart rule hrule
  have hfixed := (hplain start rule hstart hrule).fixedWeight
  have hnonneg : ∀ weight ∈ rule.choices.map Choice.weight, 0 ≤ weight :=
    List.forall_mem_map.mpr (hplain.nonNegative.choice_weight_nonneg h hstart rule hrule)
  have htotal : rule.total = (rule.choices.map Choice.weight).sum := by
    rw [← htallied.weight_sum rule hfixed, Rule.weight, hfixed, Option.getD_none]
  rw [htallied.weight_sum rule hfixed] at hpositive
  have hplace : (rule.choices.map Choice.weight)[place]? = some choice.weight := by
    rw [List.getElem?_map, hchoice, Option.map_some]
  rw [Rule.share, hchoice, Option.map_some, Option.getD_some, htotal, htallied.table]
  exact spans_runningTotals _ hnonneg hpositive place choice.weight hplace

theorem Plain.fair (rule : Rule Rat) (derivation : Derivation Rat)
    (hderives : grammar.Derives rule derivation) (hrule : grammar.Below start rule) :
    derivation.Fair false := by
  refine hderives.induction_below (P := fun _ derivation => derivation.Fair false)
    (Q := fun _ pieces => ∀ point ∈ choicePointsOfPieces pieces,
      Spans point.1.table (point.1.equalized || false) point.2 (point.1.share point.2))
    ?nothing ?choice ?nil ?literal ?outside ?derived rule derivation hrule
  case nothing => exact fun rule _ _ point hpoint => absurd hpoint List.not_mem_nil
  case choice =>
    intro rule place choice pieces hrule hchoice hpieces ih
    refine List.forall_mem_cons.mpr ⟨?_, ih⟩
    rw [(hplain start rule hstart hrule).equalized]
    have hpositive := hplain.weight_pos h hstart rule hrule _
      (.choice rule place choice pieces hchoice hpieces)
    exact hplain.spans_table h hstart rule hrule hpositive place choice hchoice
  case nil => exact fun point hpoint => absurd hpoint List.not_mem_nil
  case literal => exact fun _ _ _ ih => ih
  case outside => exact fun _ _ _ ih => ih
  case derived =>
    exact fun _ _ _ _ _ _ _ _ hfirst hrest => List.forall_mem_append.mpr ⟨hfirst, hrest⟩

end Grammar

namespace Ensemble

variable (ensemble : Ensemble Rat) (h : ensemble.Reachable)
  (hplain : ∀ member ∈ ensemble.members, member.grammar.Plain)

include h hplain

-- A member with a derivation has its share of an ensemble.
theorem share_mul_chance (place : Nat) (member : Member Rat)
    (hplace : ensemble.members[place]? = some member) (rule : Rule Rat)
    (hrule : member.grammar.startRule? = some rule) (derivation : Derivation Rat)
    (hderives : member.grammar.Derives rule derivation) :
    ensemble.share place * derivation.chance = 1 / ensemble.weight ∧
      Spans ensemble.table false place (ensemble.share place) := by
  have hmember := List.mem_of_getElem? hplace
  obtain ⟨hreachable, start, hstart⟩ := h.totalled.bound member hmember
  have hbelow := Grammar.Below.startRule hstart rule hrule
  have hchance := (hplain member hmember).chance_mul_weight hreachable hstart rule derivation
    hderives hbelow
  have hpositive := (hplain member hmember).weight_pos hreachable hstart rule hbelow
    derivation hderives
  have hentry : ensemble.weights[place]? = some rule.weight := by
    rw [weights, List.getElem?_map, hplace, Option.map_some,
      Grammar.weight_of_startRule rule hrule]
  have htotal : ensemble.weight = ensemble.weights.sum := by
    rw [Ensemble.weight, h.totalled.table, lastTotal_runningTotals_rat]
  have hnonneg := ensemble.weights_nonneg h fun member hmember => (hplain member hmember).nonNegative
  have hsum : 0 < ensemble.weights.sum :=
    hpositive.trans_le (List.single_le_sum hnonneg _ (List.mem_of_getElem? hentry))
  rw [share, hentry, Option.getD_some, htotal, h.totalled.table]
  refine ⟨?_, spans_runningTotals _ hnonneg hsum place rule.weight hentry⟩
  rw [div_mul_eq_mul_div, mul_comm, hchance]

end Ensemble

-- In a plain grammar every rule weighs as much as it has derivations, and all
-- derivations of the start have the same chance. So have all those of an
-- ensemble of plain grammars.
theorem uniform_over_derivations :
    (∀ (grammar : Grammar Rat) (start : Nat), grammar.Reachable → grammar.start = some start →
      grammar.Plain →
        (∀ rule, grammar.Below start rule → ∃ all : List (Derivation Rat), all.Nodup ∧
          (∀ derivation, derivation ∈ all ↔ grammar.Derives rule derivation) ∧
          rule.weight = all.length) ∧
        ∀ rule derivation, grammar.startRule? = some rule → grammar.Derives rule derivation →
          derivation.chance = 1 / grammar.weight ∧ derivation.Fair false) ∧
    ∀ ensemble : Ensemble Rat, ensemble.Reachable →
      (∀ member ∈ ensemble.members, member.grammar.Plain) →
        ∀ place member rule derivation, ensemble.members[place]? = some member →
          member.grammar.startRule? = some rule → member.grammar.Derives rule derivation →
            ensemble.share place * derivation.chance = 1 / ensemble.weight ∧
            Spans ensemble.table false place (ensemble.share place) ∧
            (ensemble.equalized = false → derivation.Fair ensemble.equalized) := by
  constructor
  · intro grammar start h hstart hplain
    refine ⟨fun rule hrule => ?_, fun rule derivation hrule hderives => ?_⟩
    · exact ⟨grammar.derivations rule, (h.enumerates hstart rule hrule).nodup,
        hplain.mem_derivations_iff h hstart rule hrule, hplain.weight_eq_length h hstart rule hrule⟩
    · have hbelow := Grammar.Below.startRule hstart rule hrule
      have hchance := hplain.chance_mul_weight h hstart rule derivation hderives hbelow
      refine ⟨?_, hplain.fair h hstart rule derivation hderives hbelow⟩
      rw [Grammar.weight_of_startRule rule hrule]
      exact eq_one_div_of_mul_eq_one_left hchance
  · intro ensemble h hplain place member rule derivation hplace hrule hderives
    obtain ⟨hshare, hspans⟩ :=
      ensemble.share_mul_chance h hplain place member hplace rule hrule derivation hderives
    have hmember := List.mem_of_getElem? hplace
    obtain ⟨hreachable, start, hstart⟩ := h.totalled.bound member hmember
    have hbelow := Grammar.Below.startRule hstart rule hrule
    refine ⟨hshare, hspans, fun hequalized => hequalized ▸ ?_⟩
    exact (hplain member hmember).fair hreachable hstart rule derivation hderives hbelow

theorem Grammar.plain_of_nested {ω : Type} (grammar : Grammar ω)
    (h : ∀ assignment ∈ grammar.assignments, ∀ inner ∈ assignment.rule.nested, inner.Plain) :
    grammar.Plain :=
  fun _ rule _ hrule => hrule.of_nested rule h

-- A plain grammar, held with two of its names as the start.
def pair : Ensemble Rat :=
  let inner : Rule Rat :=
    .ofChoices [Choice.empty.push (.literal "y"), Choice.empty.push (.literal "z")] false [] none
  let main : Rule Rat :=
    .ofChoices [Choice.empty.push (.literal "x"),
      (Choice.empty.push (.inline inner)).push (.reference "end" none)] false [] none
  let last : Rule Rat :=
    .ofChoices [Choice.empty.push (.literal "p"), Choice.empty.push (.reference "q" none)] false []
      none
  let grammar := ((Grammar.empty.insert "main" main).1.insert "end" last).1
  ((Ensemble.empty.add grammar "main" .first).2.1.add grammar "end" ⟨2⟩).2.1

theorem uniform_over_pair :
    pair.Reachable ∧ (∀ member ∈ pair.members, member.grammar.Plain) ∧
      ∃ member rule derivation, pair.members[1]? = some member ∧
        member.grammar.startRule? = some rule ∧ member.grammar.Derives rule derivation ∧
        pair.share 1 * derivation.chance = 1 / 7 ∧
        ∃ all : List (Derivation Rat), derivation ∈ all ∧ all.Nodup ∧
          rule.weight = (all.length : Rat) := by
  have hgrammar : ∀ main last : Rule Rat,
      ((Grammar.empty.insert "main" main).1.insert "end" last).1.Reachable :=
    fun _ _ => .insert _ _ _ (.insert _ _ _ .empty)
  have hreachable : pair.Reachable :=
    .add _ _ _ _ (.add _ _ _ _ .empty (hgrammar _ _)) (hgrammar _ _)
  have hnested : ∀ member ∈ pair.members, ∀ assignment ∈ member.grammar.assignments,
      ∀ inner ∈ assignment.rule.nested, inner.Plain := by decide +kernel
  have hplain (member : Member Rat) (hmember : member ∈ pair.members) : member.grammar.Plain :=
    member.grammar.plain_of_nested (hnested member hmember)
  have hweight : pair.weight = 7 := by decide +kernel
  obtain ⟨member, rule, hmember, hrule, hderives⟩ : ∃ member rule, pair.members[1]? = some member ∧
      member.grammar.startRule? = some rule ∧
      member.grammar.Derives rule (.choice rule 1 [.outside "q"]) :=
    ⟨_, _, rfl, rfl, .choice _ 1 _ _ rfl (.outside "q" [] [] .nil)⟩
  have hmem := List.mem_of_getElem? hmember
  obtain ⟨hbound, start, hstart⟩ := hreachable.totalled.bound member hmem
  obtain ⟨hcount, _⟩ := uniform_over_derivations.1 member.grammar start hbound hstart
    (hplain member hmem)
  obtain ⟨all, hnodup, hall, hlength⟩ := hcount rule (Grammar.Below.startRule hstart rule hrule)
  obtain ⟨hshare, _⟩ := uniform_over_derivations.2 pair hreachable hplain 1 member rule _ hmember
    hrule hderives
  exact ⟨hreachable, hplain, member, rule, _, hmember, hrule, hderives, hweight ▸ hshare, all,
    (hall _).mpr hderives, hnodup, hlength⟩

end PhraseGrammar
