import Mathlib.Algebra.Order.BigOperators.Group.List
import Mathlib.Algebra.Order.Field.Rat
import PhraseGrammar.Proofs.Derivation.Count
import PhraseGrammar.Proofs.Ensemble.Reachable
import PhraseGrammar.Proofs.Selection.Spans

namespace PhraseGrammar

-- No weight that is fixed in the rule is negative.
structure Rule.NonNegative (rule : Rule Rat) : Prop where
  fixedWeight (weight : Rat) (hweight : rule.fixedWeight = some weight) : 0 ≤ weight
  choices (choice : Choice Rat) (hchoice : choice ∈ rule.choices) (weight : Rat)
    (hweight : choice.fixedWeight = some weight) : 0 ≤ weight

instance (rule : Rule Rat) : Decidable rule.NonNegative :=
  decidable_of_iff ((∀ weight ∈ rule.fixedWeight, 0 ≤ weight) ∧
      ∀ choice ∈ rule.choices, ∀ weight ∈ choice.fixedWeight, 0 ≤ weight)
    ⟨fun ⟨hfixed, hchoices⟩ => ⟨hfixed, hchoices⟩, fun h => ⟨h.fixedWeight, h.choices⟩⟩

-- No weight that is fixed in what the start leads to is negative.
def Grammar.NonNegative (grammar : Grammar Rat) : Prop :=
  ∀ start rule, grammar.start = some start → grammar.Below start rule → rule.NonNegative

namespace Grammar

variable {grammar : Grammar Rat} {start : Nat}

theorem Tallied.weight_eq_getD_sum (rule : Rule Rat) (h : grammar.Tallied rule) :
    rule.weight = rule.fixedWeight.getD (rule.choices.map Choice.weight).sum := by
  rw [h.weight_eq]
  exact congrArg _ ((foldl_add_rat _ 0).trans (zero_add _))

theorem choice_weight_nonneg_of_product (rule : Rule Rat) (hrule : rule.NonNegative)
    (choice : Choice Rat) (hchoice : choice ∈ rule.choices) (hproduct : 0 ≤ choice.product) :
    0 ≤ choice.weight := by
  rw [Choice.weight]
  cases hfixed : choice.fixedWeight with
  | none => exact hproduct
  | some weight => exact hrule.choices choice hchoice weight hfixed

-- Products and sums of weights that are not negative are not either.
theorem counting_nonNegative (grammar : Grammar Rat) :
    grammar.Counting Rule.NonNegative fun tally _ => 0 ≤ tally.weight where
  one := zero_le_one
  times left right _ _ hleft hright := mul_nonneg hleft hright
  rule rule htallied hrule _ hcount := by
    rw [Rule.tally, htallied.weight_eq_getD_sum rule]
    cases hfixed : rule.fixedWeight with
    | some weight => exact hrule.fixedWeight weight hfixed
    | none =>
        apply List.sum_nonneg
        intro weight hweight
        obtain ⟨choice, hchoice, rfl⟩ := List.mem_map.mp hweight
        exact choice_weight_nonneg_of_product rule hrule choice hchoice (hcount choice hchoice)

theorem tallyFrom_nonneg (tally : Tally Rat) (htally : 0 ≤ tally.weight) (parts : List (Part Rat))
    (hparts : ∀ part ∈ parts, ∀ inner, grammar.ruleOf? part = some inner → 0 ≤ inner.weight) :
    0 ≤ (grammar.tallyFrom tally parts).weight := by
  induction parts generalizing tally with
  | nil => exact htally
  | cons part rest ih =>
      obtain ⟨hpart, hrest⟩ := List.forall_mem_cons.mp hparts
      cases hrule : grammar.ruleOf? part with
      | none =>
          rw [tallyFrom_skip _ _ _ _ hrule]
          exact ih tally htally hrest
      | some rule =>
          rw [tallyFrom_rule _ _ _ _ rule hrule]
          exact ih _ (mul_nonneg htally (hpart rule hrule)) hrest

variable (h : grammar.Reachable) (hstart : grammar.start = some start)
  (hweights : grammar.NonNegative)

include h hstart hweights

theorem NonNegative.weight_nonneg (rule : Rule Rat) (hrule : grammar.Below start rule) :
    0 ≤ rule.weight :=
  (counting_nonNegative grammar).reads_derivations h hstart
    (fun inner => hweights start inner hstart) rule hrule

theorem NonNegative.choice_weight_nonneg (rule : Rule Rat) (hrule : grammar.Below start rule)
    (choice : Choice Rat) (hchoice : choice ∈ rule.choices) : 0 ≤ choice.weight := by
  apply choice_weight_nonneg_of_product rule (hweights start rule hstart hrule) choice hchoice
  have htally := (h.tallied hstart rule hrule).choice choice hchoice
  have hproduct : choice.product = (grammar.tallyFrom Tally.one choice.parts).weight :=
    congrArg Tally.weight htally
  rw [hproduct]
  apply tallyFrom_nonneg Tally.one zero_le_one
  intro part hpart inner hinner
  have hbelow := hrule.ruleOf? rule inner choice hchoice part hpart hinner
  exact hweights.weight_nonneg h hstart inner hbelow

end Grammar

theorem Ensemble.weights_nonneg (ensemble : Ensemble Rat) (h : ensemble.Reachable)
    (hweights : ∀ member ∈ ensemble.members, member.grammar.NonNegative) :
    ∀ weight ∈ ensemble.weights, 0 ≤ weight := by
  intro weight hweight
  obtain ⟨member, hmember, rfl⟩ := List.mem_map.mp hweight
  obtain ⟨hreachable, start, hstart⟩ := h.totalled.bound member hmember
  cases hrule : member.grammar.startRule? with
  | none => simp [Grammar.weight, hrule]
  | some rule =>
      have hbelow := Grammar.Below.startRule hstart rule hrule
      rw [Grammar.weight_of_startRule rule hrule]
      exact (hweights member hmember).weight_nonneg hreachable hstart rule hbelow

end PhraseGrammar
