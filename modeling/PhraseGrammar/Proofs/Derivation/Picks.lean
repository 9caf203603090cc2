import PhraseGrammar.Proofs.Derivation.NonNegative
import PhraseGrammar.Proofs.Derivation.Phrases

namespace PhraseGrammar

section Tables

variable (weights : List Rat) (hweights : ∀ weight ∈ weights, 0 ≤ weight)
  (hpositive : 0 < weights.sum) (drawn : Rat) (hone : drawn < 1)

include hweights hpositive hone

-- Only a draw of zero can fall on an entry without a weight.
theorem weight_pos_of_entryAt (hzero : 0 < drawn) (index : Nat) (hindex : index < weights.length)
    (hentry : entryAt (runningTotals weights) false drawn = index) : 0 < weights[index] := by
  rw [entryAt_runningTotals_iff weights hweights hpositive drawn hone index hindex] at hentry
  obtain ⟨hbefore, hend⟩ := hentry
  have hnext := weights.sum_take_succ index hindex
  have hstart : (weights.take index).sum < drawn * weights.sum := by
    rcases hbefore with rfl | hbefore
    · rw [List.take_zero, List.sum_nil]
      exact mul_pos hzero hpositive
    · exact hbefore
  have hgrows : (weights.take index).sum < (weights.take index).sum + weights[index] := by
    rw [← hnext]
    exact hstart.trans_le hend
  exact lt_add_iff_pos_right _ |>.mp hgrows

end Tables

-- The choice at the place weighs something.
def Rule.HasWeightAt (rule : Rule Rat) (place : Nat) : Prop :=
  ∃ choice, rule.choices[place]? = some choice ∧ 0 < choice.weight

-- Where there is a weight to choose by, what is chosen has one unless zero is
-- drawn. A draw of zero chooses the first of several choices, whether it has a
-- weight or not.
structure Source.AvoidsWeightless (source : Source Rat) (points : List (Rule Rat × Nat)) :
    Prop where
  sole (point : Rule Rat × Nat) (hpoint : point ∈ points) (hsole : point.1.choices.length < 2)
    (hpositive : 0 < point.1.total) : point.1.HasWeightAt point.2
  drawn (place : Nat) (point : Rule Rat × Nat)
    (hpoint : (realChoices points)[place]? = some point) (hequalized : point.1.equalized = false)
    (hpositive : 0 < point.1.total) (hdrawn : source.stream (source.drawn + place) ≠ 0) :
    point.1.HasWeightAt point.2
  zero (place : Nat) (point : Rule Rat × Nat)
    (hpoint : (realChoices points)[place]? = some point) (hequalized : point.1.equalized = false)
    (hzero : source.stream (source.drawn + place) = 0) : point.2 = 0

-- The numbers of the source are from zero to one, without one.
def Source.Unit (source : Source Rat) : Prop :=
  ∀ place, 0 ≤ source.stream place ∧ source.stream place < 1

theorem Source.unit_singleton (number : Rat) (h : 0 ≤ number ∧ number < 1) :
    (Source.ofList [number]).Unit := by
  rintro (_ | place)
  · exact h
  · exact h

namespace Grammar

variable {grammar : Grammar Rat} {start : Nat}

theorem Tallied.total_eq_sum (rule : Rule Rat) (h : grammar.Tallied rule) :
    rule.total = (rule.choices.map Choice.weight).sum := by
  rw [Rule.total, h.table, lastTotal_runningTotals_rat]

variable (h : grammar.Reachable) (hstart : grammar.start = some start)
  (hweights : grammar.NonNegative)

include h hstart hweights

omit hweights in
-- What the number drawn for a choice falls on, by the weights to choose from.
theorem Reachable.entryAt_of_decides (source : Source Rat) (points : List (Rule Rat × Nat))
    (hbelow : ∀ point ∈ points, grammar.Below start point.1)
    (hdecides : source.Decides false points) (place : Nat) (point : Rule Rat × Nat)
    (hpoint : (realChoices points)[place]? = some point)
    (hequalized : point.1.equalized = false) :
    entryAt (runningTotals (point.1.choices.map Choice.weight)) false
      (source.stream (source.drawn + place)) = point.2 := by
  have hrule := hbelow point (List.mem_of_mem_filter (List.mem_of_getElem? hpoint))
  have hdecided := hdecides place point hpoint
  rw [hequalized, Bool.or_false, (h.tallied hstart point.1 hrule).table] at hdecided
  exact hdecided.symm

theorem NonNegative.avoidsWeightless (source : Source Rat) (hunit : source.Unit)
    (points : List (Rule Rat × Nat))
    (hbelow : ∀ point ∈ points, grammar.Below start point.1 ∧ point.2 < point.1.choices.length)
    (hdecides : source.Decides false points) : source.AvoidsWeightless points := by
  have hrules : ∀ point ∈ points, grammar.Below start point.1 :=
    fun point hpoint => (hbelow point hpoint).1
  have hentry := h.entryAt_of_decides hstart source points hrules hdecides
  have hnonneg : ∀ point ∈ points, ∀ weight ∈ point.1.choices.map Choice.weight, 0 ≤ weight :=
    fun point hpoint => List.forall_mem_map.mpr
      (hweights.choice_weight_nonneg h hstart point.1 (hrules point hpoint))
  refine ⟨?_, ?_, ?_⟩
  · rintro ⟨rule, place⟩ hpoint hsole hpositive
    obtain ⟨hrule, hplace⟩ := hbelow _ hpoint
    have htotal := (h.tallied hstart rule hrule).total_eq_sum
    dsimp only at hsole hplace hpositive
    obtain ⟨choice, hchoices⟩ := List.length_eq_one_iff.mp (by omega : rule.choices.length = 1)
    obtain rfl : place = 0 := by omega
    refine ⟨choice, by rw [hchoices]; rfl, ?_⟩
    simpa [htotal, hchoices] using hpositive
  · rintro place ⟨rule, index⟩ hpoint hequalized hpositive hdrawn
    have hmem := List.mem_of_mem_filter (List.mem_of_getElem? hpoint)
    obtain ⟨hrule, hindex⟩ := hbelow _ hmem
    dsimp only at hpositive hindex
    rw [(h.tallied hstart rule hrule).total_eq_sum] at hpositive
    obtain ⟨hzero, hone⟩ := hunit (source.drawn + place)
    have hlt : index < (rule.choices.map Choice.weight).length := by simpa using hindex
    have hweight := weight_pos_of_entryAt _ (hnonneg _ hmem) hpositive _ hone
      (lt_of_le_of_ne hzero hdrawn.symm) index hlt (hentry place _ hpoint hequalized)
    rw [List.getElem_map] at hweight
    exact ⟨rule.choices[index], List.getElem?_eq_getElem hindex, hweight⟩
  · intro place point hpoint hequalized hzero
    have hmem := List.mem_of_mem_filter (List.mem_of_getElem? hpoint)
    rw [← hentry place point hpoint hequalized]
    exact entryAt_runningTotals_of_mul_eq_zero _ (hnonneg point hmem) _ (by rw [hzero, zero_mul])

theorem NonNegative.exists_avoiding (source : Source Rat) (hunit : source.Unit) :
    ∃ derivation, grammar.Follows false source derivation ∧
      source.AvoidsWeightless derivation.choicePoints := by
  obtain ⟨derivation, hfollows, _⟩ := h.exists_follows hstart false source
  obtain ⟨rule, hrule, hderives⟩ := hfollows.derives
  have hbelow := hderives.choicePoints_below rule derivation (Below.startRule hstart rule hrule)
  exact ⟨derivation, hfollows,
    hweights.avoidsWeightless h hstart source hunit _ hbelow hfollows.decides⟩

end Grammar

namespace Ensemble

variable (ensemble : Ensemble Rat) (h : ensemble.Reachable)
  (hweights : ∀ member ∈ ensemble.members, member.grammar.NonNegative)

include h

theorem exists_selected (hsome : ensemble.members ≠ []) (source : Source Rat) :
    ∃ place member after, selectEntry ensemble.table false source = (some place, after) ∧
      ensemble.members[place]? = some member ∧ after.stream = source.stream := by
  have hlength : ensemble.table.length = ensemble.members.length := by
    simp [h.totalled.table, weights]
  rcases hselect : selectEntry ensemble.table false source with ⟨_ | place, after⟩
  · have hnone := (selectEntry_eq_none_iff _ _ _).mp (congrArg Prod.fst hselect)
    rw [hnone, List.length_nil, eq_comm, List.length_eq_zero_iff] at hlength
    exact absurd hlength hsome
  · have hlt := selectEntry_lt _ _ _ place (congrArg Prod.fst hselect)
    have hplace : place < ensemble.members.length := hlength ▸ hlt
    have hstream := stream_selectEntry ensemble.table false source
    rw [hselect] at hstream
    exact ⟨place, _, after, rfl, List.getElem?_eq_getElem hplace, hstream⟩

omit h in
theorem generate_of_selected (source after : Source Rat) (place : Nat) (member : Member Rat)
    (hselect : selectEntry ensemble.table false source = (some place, after))
    (hplace : ensemble.members[place]? = some member) (context : Context) :
    ensemble.generate context source =
      member.grammar.generate context ensemble.equalized after := by
  rw [Ensemble.generate, Generation.bind_apply]
  simp only [Generation.select, hselect, hplace]

include hweights

omit hweights in
-- The next number of the source falls on one of several members.
theorem entryAt_of_selected (source after : Source Rat) (place : Nat)
    (hselect : selectEntry ensemble.table false source = (some place, after))
    (htwo : 2 ≤ ensemble.members.length) :
    entryAt (runningTotals ensemble.weights) false source.draw.1 = place := by
  have htable := h.totalled.table
  have hlength : 2 ≤ ensemble.table.length := by simpa [htable, weights]
  rw [selectEntry_of_two_le _ _ _ hlength] at hselect
  rw [← htable]
  exact Option.some.inj (Prod.mk.inj hselect).1

-- The member that is selected weighs something, if any does and it is the only
-- one or zero is not drawn.
theorem selected_weight_pos (source after : Source Rat) (hunit : source.Unit) (place : Nat)
    (member : Member Rat)
    (hselect : selectEntry ensemble.table false source = (some place, after))
    (hplace : ensemble.members[place]? = some member) (hpositive : 0 < ensemble.weight)
    (hdrawn : ensemble.members.length < 2 ∨ source.draw.1 ≠ 0) :
    0 < member.grammar.weight := by
  have hnonneg := ensemble.weights_nonneg h hweights
  rw [Ensemble.weight, h.totalled.table, lastTotal_runningTotals_rat] at hpositive
  obtain ⟨hlt, hmember⟩ := List.getElem?_eq_some_iff.mp hplace
  by_cases htwo : 2 ≤ ensemble.members.length
  · have hentry := ensemble.entryAt_of_selected h source after place hselect htwo
    obtain ⟨hzero, hone⟩ := hunit source.drawn
    have hpos : 0 < source.draw.1 :=
      lt_of_le_of_ne hzero (hdrawn.resolve_left (by omega)).symm
    have hindex : place < ensemble.weights.length := by rwa [weights, List.length_map]
    have hweight := weight_pos_of_entryAt _ hnonneg hpositive source.draw.1 hone hpos place hindex
      hentry
    simpa only [weights, List.getElem_map, hmember] using hweight
  · obtain ⟨sole, hmembers⟩ :=
      List.length_eq_one_iff.mp (by omega : ensemble.members.length = 1)
    obtain rfl : place = 0 := by omega
    obtain rfl : sole = member := by simpa [hmembers] using hplace
    simpa [weights, hmembers] using hpositive

theorem selected_of_zero (source after : Source Rat) (place : Nat)
    (hselect : selectEntry ensemble.table false source = (some place, after))
    (htwo : 2 ≤ ensemble.members.length) (hzero : source.draw.1 = 0) : place = 0 := by
  rw [← ensemble.entryAt_of_selected h source after place hselect htwo]
  exact entryAt_runningTotals_of_mul_eq_zero _ (ensemble.weights_nonneg h hweights) _
    (by rw [hzero, zero_mul])

end Ensemble

-- Neither a choice without a weight is taken nor a member without one selected,
-- where there is a weight to choose by and the number drawn is not zero. A draw
-- of zero falls on the first of several, whether it has a weight or not.
theorem weightless_entries_are_avoided :
    (∀ (grammar : Grammar Rat) (start : Nat), grammar.Reachable → grammar.start = some start →
      grammar.NonNegative → ∀ source : Source Rat, source.Unit →
        ∃ derivation, grammar.Follows false source derivation ∧
          source.AvoidsWeightless derivation.choicePoints) ∧
    ∀ ensemble : Ensemble Rat, ensemble.Reachable →
      (∀ member ∈ ensemble.members, member.grammar.NonNegative) → ensemble.members ≠ [] →
        ∀ source : Source Rat, source.Unit → ∃ place member after,
          selectEntry ensemble.table false source = (some place, after) ∧
          ensemble.members[place]? = some member ∧
          (∀ context, ensemble.generate context source =
            member.grammar.generate context ensemble.equalized after) ∧
          (0 < ensemble.weight → ensemble.members.length < 2 ∨ source.draw.1 ≠ 0 →
            0 < member.grammar.weight) ∧
          (2 ≤ ensemble.members.length → source.draw.1 = 0 → place = 0) ∧
          (ensemble.equalized = false → ∃ derivation,
            member.grammar.Follows false after derivation ∧
            after.AvoidsWeightless derivation.choicePoints) := by
  constructor
  · intro grammar start h hstart hweights source hunit
    exact hweights.exists_avoiding h hstart source hunit
  · intro ensemble h hweights hsome source hunit
    obtain ⟨place, member, after, hselect, hplace, hstream⟩ :=
      ensemble.exists_selected h hsome source
    have hafter : after.Unit := by rwa [Source.Unit, hstream]
    have hmember := List.mem_of_getElem? hplace
    obtain ⟨hreachable, start, hstart⟩ := h.totalled.bound member hmember
    refine ⟨place, member, after, hselect, hplace, ?_, ?_, ?_, fun _ => ?_⟩
    · exact ensemble.generate_of_selected source after place member hselect hplace
    · exact ensemble.selected_weight_pos h hweights source after hunit place member hselect hplace
    · exact ensemble.selected_of_zero h hweights source after place hselect
    · exact (hweights member hmember).exists_avoiding hreachable hstart after hafter

theorem Grammar.nonNegative_of_nested (grammar : Grammar Rat)
    (h : ∀ assignment ∈ grammar.assignments, ∀ inner ∈ assignment.rule.nested,
      inner.NonNegative) : grammar.NonNegative :=
  fun _ rule _ hrule => hrule.of_nested rule h

-- Two choices, the first without a weight.
def hesitant : Grammar Rat :=
  let main : Rule Rat :=
    .ofChoices [{ Choice.empty.push (.literal "a") with fixedWeight := some 0 },
      Choice.empty.push (.literal "b")] false [] none
  (Grammar.empty.insert "main" main).1

theorem hesitant_reachable : hesitant.Reachable := .insert _ _ _ .empty

theorem hesitant_nonNegative : (hesitant.bind "main").1.NonNegative := by
  apply Grammar.nonNegative_of_nested
  decide +kernel

-- The ensemble of the grammar, after one that has no weight at all.
def hesitantPair : Ensemble Rat :=
  let idle : Rule Rat := .ofChoices [Choice.empty.push (.literal "c")] false [] (some 0)
  let grammar := (Grammar.empty.insert "main" idle).1
  ((Ensemble.empty.add grammar "main" .first).2.1.add hesitant "main" ⟨2⟩).2.1

theorem hesitant_avoids_weightless :
    (∃ derivation, (hesitant.bind "main").1.Follows false (.ofList [1 / 2]) derivation ∧
      (Source.ofList [1 / 2]).AvoidsWeightless derivation.choicePoints) ∧
    0 < hesitantPair.weight ∧ ∃ place member,
      (selectEntry hesitantPair.table false (.ofList [1 / 2])).1 = some place ∧
      hesitantPair.members[place]? = some member ∧ 0 < member.grammar.weight := by
  have hunit : (Source.ofList [(1 / 2 : Rat)]).Unit := Source.unit_singleton _ (by decide +kernel)
  have hpair : hesitantPair.Reachable :=
    .add _ _ _ _ (.add _ _ _ _ .empty (.insert _ _ _ .empty)) hesitant_reachable
  have hmembers : ∀ member ∈ hesitantPair.members, member.grammar.NonNegative := by
    have hnested : ∀ member ∈ hesitantPair.members, ∀ assignment ∈ member.grammar.assignments,
        ∀ inner ∈ assignment.rule.nested, inner.NonNegative := by decide +kernel
    exact fun member hmember => member.grammar.nonNegative_of_nested (hnested member hmember)
  have hpositive : 0 < hesitantPair.weight := by decide +kernel
  have hsome : hesitantPair.members ≠ [] := by
    rw [← List.length_pos_iff]
    decide +kernel
  have hgrammar := weightless_entries_are_avoided.1 (hesitant.bind "main").1 0
    (.bind _ _ hesitant_reachable) (by decide) hesitant_nonNegative _ hunit
  obtain ⟨place, member, after, hselect, hplace, _, hweight, _⟩ :=
    weightless_entries_are_avoided.2 hesitantPair hpair hmembers hsome _ hunit
  exact ⟨hgrammar, hpositive, place, member, congrArg Prod.fst hselect, hplace,
    hweight hpositive (.inr (by decide +kernel))⟩

-- A draw of zero takes the choice without a weight.
theorem hesitant_takes_weightless :
    (hesitant.bind "main").2 = [] ∧ (hesitant.bind "main").1.Reachable ∧
    (hesitant.bind "main").1.NonNegative ∧ (Source.ofList [(0 : Rat)]).Unit ∧
    ∃ rule, (hesitant.bind "main").1.Follows false (.ofList [0])
        (.choice rule 0 [.literal "a"]) ∧
      rule.equalized = false ∧ 0 < rule.total ∧ ¬ rule.HasWeightAt 0 := by
  have hbound : (hesitant.bind "main").1.Reachable := .bind _ _ hesitant_reachable
  obtain ⟨rule, hrule, hderives, hdecides, hequalized, htotal, hfirst⟩ : ∃ rule,
      (hesitant.bind "main").1.startRule? = some rule ∧
      (hesitant.bind "main").1.Derives rule (.choice rule 0 [.literal "a"]) ∧
      (2 ≤ rule.choices.length → 0 = entryAt rule.table (rule.equalized || false) 0) ∧
      rule.equalized = false ∧ 0 < rule.total ∧ (rule.choices.map Choice.weight)[0]? = some 0 :=
    ⟨_, rfl, .choice _ 0 _ _ rfl (.literal "a" [] [] .nil), by decide +kernel, by decide +kernel,
      by decide +kernel, by decide +kernel⟩
  obtain ⟨derivation, hfollows, hunique⟩ :=
    hbound.exists_follows (by decide : _ = some 0) false (.ofList [0])
  obtain rfl := hunique rule _ hrule hderives
    ((Source.decides_singleton_iff _ false rule 0).mpr hdecides)
  refine ⟨by decide, hbound, hesitant_nonNegative, Source.unit_singleton 0 (by decide), rule,
    hfollows, hequalized, htotal, ?_⟩
  rintro ⟨choice, hchoice, hweight⟩
  rw [List.getElem?_map, hchoice] at hfirst
  exact hweight.ne' (Option.some.inj hfirst)

end PhraseGrammar
