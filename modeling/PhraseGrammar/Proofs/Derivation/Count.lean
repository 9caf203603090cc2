import Mathlib.Algebra.BigOperators.Ring.Finset
import PhraseGrammar.Proofs.Derivation.Enumeration

namespace PhraseGrammar

theorem foldl_capped_map_capped (counts : List Nat) (sum : Nat) :
    (counts.map capped).foldl (fun sum count => capped (sum + count)) (capped sum) =
      capped (sum + counts.sum) := by
  induction counts generalizing sum with
  | nil => rfl
  | cons count rest ih =>
      rw [List.map_cons, List.foldl_cons, capped_add_capped, ih, List.sum_cons, Nat.add_assoc]

-- Numbers that have been kept to the limit add up to what they stand for.
theorem totalCombinations_map_capped (counts : List Nat) :
    totalCombinations (counts.map capped) = capped counts.sum := by
  have h := foldl_capped_map_capped counts 0
  rwa [Nat.zero_add] at h

variable {ω : Type}

theorem length_expansionsOfChoices (follow : Nat → List (Derivation ω)) (choices : List (Choice ω))
    (first : Nat) :
    (expansionsOfChoices follow choices first).length =
      (choices.map fun choice => (expansions follow choice.parts).length).sum := by
  induction choices generalizing first with
  | nil => rfl
  | cons choice rest ih =>
      cases choice
      rw [expansionsOfChoices, List.length_append, List.length_map, ih, List.map_cons,
        List.sum_cons]

theorem Rule.length_derivations (follow : Nat → List (Derivation ω)) (rule : Rule ω) :
    (rule.derivations follow).length =
      (rule.choices.map fun choice => (expansions follow choice.parts).length).sum := by
  cases rule
  rw [Rule.derivations, List.length_map, length_expansionsOfChoices]

namespace Grammar

variable [Weight ω]

-- A way to read numbers off tallies that turns the tallies of parts into
-- factors and those of choices into summands, for rules with a property.
structure Counting (grammar : Grammar ω) (fits : Rule ω → Prop)
    (reads : Tally ω → Nat → Prop) : Prop where
  one : reads Tally.one 1
  times (left right : Tally ω) (m n : Nat) (hleft : reads left m) (hright : reads right n) :
    reads (left.times right) (m * n)
  rule (rule : Rule ω) (htallied : grammar.Tallied rule) (hfits : fits rule)
      (count : Choice ω → Nat)
      (hcount : ∀ choice ∈ rule.choices, reads choice.tally (count choice)) :
    reads rule.tally (rule.choices.map count).sum

variable {grammar : Grammar ω} {fits : Rule ω → Prop} {reads : Tally ω → Nat → Prop}
  (h : grammar.Counting fits reads) (follow : Nat → List (Derivation ω))

include h

mutual

-- What is read off a rule is the number of its derivations.
theorem Counting.reads_rule : ∀ rule : Rule ω,
    (∀ inner ∈ rule.nested, grammar.Tallied inner ∧ fits inner) →
    grammar.LinksHold (fun index rule => reads rule.tally (follow index).length) rule.references →
    reads rule.tally (rule.derivations follow).length
  | ⟨choices, table, equalized, substitutions, fixedWeight, mark⟩, hnested, hlinks => by
      simp only [Rule.nested, List.mem_cons, forall_eq_or_imp] at hnested
      obtain ⟨⟨htallied, hfits⟩, hinner⟩ := hnested
      rw [Rule.length_derivations]
      refine h.rule _ htallied hfits _ fun choice hchoice => ?_
      rw [htallied.choice choice hchoice]
      exact reads_choices choices hinner hlinks choice hchoice

theorem Counting.reads_choices : ∀ choices : List (Choice ω),
    (∀ inner ∈ nestedInChoices choices, grammar.Tallied inner ∧ fits inner) →
    grammar.LinksHold (fun index rule => reads rule.tally (follow index).length)
      (referencesOfChoices choices) →
    ∀ choice ∈ choices, reads (grammar.tallyFrom Tally.one choice.parts)
      (expansions follow choice.parts).length
  | [], _, _, _, hchoice => absurd hchoice List.not_mem_nil
  | ⟨parts, _, _, _⟩ :: rest, hnested, hlinks, choice, hchoice => by
      rcases List.mem_cons.mp hchoice with rfl | hrest
      · have hparts := reads_parts parts Tally.one 1 h.one
          (fun inner hinner => hnested inner (List.mem_append_left _ hinner)) hlinks.left
        rwa [Nat.one_mul] at hparts
      · exact reads_choices rest
          (fun inner hinner => hnested inner (List.mem_append_right _ hinner)) hlinks.right choice
          hrest

theorem Counting.reads_parts : ∀ (parts : List (Part ω)) (tally : Tally ω) (n : Nat),
    reads tally n →
    (∀ inner ∈ nestedInParts parts, grammar.Tallied inner ∧ fits inner) →
    grammar.LinksHold (fun index rule => reads rule.tally (follow index).length)
      (referencesOfParts parts) →
    reads (grammar.tallyFrom tally parts) (n * (expansions follow parts).length)
  | [], tally, n, hn, _, _ => by
      rw [expansions, List.length_singleton, Nat.mul_one]
      exact hn
  | .literal _ :: rest, tally, n, hn, hnested, hlinks => by
      rw [tallyFrom_skip _ _ _ _ rfl, expansions, List.length_map]
      exact reads_parts rest tally n hn hnested hlinks
  | .reference _ none :: rest, tally, n, hn, hnested, hlinks => by
      rw [tallyFrom_skip _ _ _ _ rfl, expansions, List.length_map]
      exact reads_parts rest tally n hn hnested hlinks.tail
  | .reference name (some index) :: rest, tally, n, hn, hnested, hlinks => by
      obtain ⟨rule, hrule, hcount⟩ := hlinks name index List.mem_cons_self
      rw [tallyFrom_rule _ _ (.reference name (some index)) _ rule hrule, expansions,
        length_expandWith, ← Nat.mul_assoc]
      exact reads_parts rest _ _ (h.times _ _ _ _ hn hcount) hnested hlinks.tail
  | .inline rule :: rest, tally, n, hn, hnested, hlinks => by
      have hcount := reads_rule rule
        (fun inner hinner => hnested inner (List.mem_append_left _ hinner)) hlinks.left
      rw [tallyFrom_rule _ _ (.inline rule) _ rule rfl, expansions, length_expandWith,
        ← Nat.mul_assoc]
      exact reads_parts rest _ _ (h.times _ _ _ _ hn hcount)
        (fun inner hinner => hnested inner (List.mem_append_right _ hinner)) hlinks.right

end

theorem Counting.reads_derivations {start : Nat} (hreachable : grammar.Reachable)
    (hstart : grammar.start = some start)
    (hfits : ∀ inner, grammar.Below start inner → fits inner) (rule : Rule ω)
    (hrule : grammar.Below start rule) : reads rule.tally (grammar.derivations rule).length := by
  have hnested (inner : Rule ω) (hinner : grammar.Below start inner) :
      grammar.Tallied inner ∧ fits inner :=
    ⟨hreachable.tallied hstart inner hinner, hfits inner hinner⟩
  refine h.reads_rule _ rule (fun inner hinner => hnested inner ?_)
    (Below.linksHold _ (fun index hlinks => ?_) rule hrule)
  · obtain ⟨index, outer, hlinks, hat, hmem⟩ := hrule
    exact ⟨index, outer, hlinks, hat, outer.nested_trans rule hmem hinner⟩
  · refine hreachable.induction_on_links hstart
      (fun depth index rule => reads rule.tally (grammar.derivationsAt depth index).length) ?_ index
      hlinks
    intro depth place linked hat hbelow hcounts
    simp only [derivationsAt, hat]
    exact h.reads_rule _ linked (fun inner hinner => hnested inner (hbelow inner hinner).1) hcounts

omit h

-- Numbers of combinations are numbers of derivations up to the limit.
theorem counting_combinations (grammar : Grammar ω) :
    grammar.Counting (fun _ => True) fun tally count => tally.combinations = capped count where
  one := (by decide : 1 = capped 1)
  times left right m n hleft hright := by
    rw [Tally.times, hleft, hright, capped_mul_capped]
  rule rule _ _ count hcount := by
    have hcounts : rule.choices.map Choice.combinations = (rule.choices.map count).map capped := by
      rw [List.map_map]
      exact List.map_congr_left hcount
    rw [Rule.tally, Rule.combinations, hcounts, totalCombinations_map_capped]

-- What binding has to find for a rule. Weights are multiplied and added from
-- left to right.
structure Aggregated (grammar : Grammar ω) (rule : Rule ω) : Prop where
  combinations : ∃ all, grammar.Enumerates rule all ∧
    rule.combinations = min (2 ^ 64 - 1) all.length
  product (choice : Choice ω) (hchoice : choice ∈ rule.choices) :
    choice.product = ((choice.parts.filterMap grammar.ruleOf?).map Rule.weight).foldl (· * ·) 1
  length_table : rule.table.length = rule.choices.length
  entry (index : Nat) (hindex : index < rule.choices.length) :
    rule.table[index]? =
      some (((rule.choices.take (index + 1)).map Choice.weight).foldl (· + ·) 0)
  weight : rule.weight = rule.fixedWeight.getD (rule.table.getLast?.getD 0)

theorem Tallied.entry (rule : Rule ω) (h : grammar.Tallied rule) (index : Nat)
    (hindex : index < rule.choices.length) :
    rule.table[index]? =
      some (((rule.choices.take (index + 1)).map Choice.weight).foldl (· + ·) 0) := by
  rw [h.table, getElem?_runningTotals _ index (by rwa [List.length_map]), List.map_take]

theorem Tallied.product (rule : Rule ω) (h : grammar.Tallied rule) (choice : Choice ω)
    (hchoice : choice ∈ rule.choices) :
    choice.product =
      ((choice.parts.filterMap grammar.ruleOf?).map Rule.weight).foldl (· * ·) 1 := by
  have hweight := congrArg Tally.weight (h.choice choice hchoice)
  rwa [weight_tallyFrom] at hweight

-- Binding finds the right number of combinations and the right weights for
-- every rule that the start leads to, and for the rules inside.
theorem bind_aggregates (grammar : Grammar ω) (h : grammar.Reachable) (start : String)
    (index : Nat) (hbind : (grammar.bind start).1.start = some index) (rule : Rule ω)
    (hrule : (grammar.bind start).1.Below index rule) :
    (grammar.bind start).1.Aggregated rule := by
  have hbound : (grammar.bind start).1.Reachable := .bind grammar start h
  have htallied := hbound.tallied hbind rule hrule
  have hcount := (counting_combinations _).reads_derivations hbound hbind (fun _ _ => trivial) rule
    hrule
  exact ⟨⟨_, hbound.enumerates hbind rule hrule, hcount.trans (Nat.min_comm _ _)⟩,
    htallied.product rule, htallied.length_table, htallied.entry rule, rfl⟩

-- Two rules that are used more than once, and one choice of a fixed weight.
def shared : Grammar Rat :=
  let inner : Rule Rat :=
    .ofChoices [Choice.empty.push (.reference "b" none), Choice.empty.push (.literal "y")] false []
      none
  let main : Rule Rat :=
    .ofChoices [Choice.empty.push (.literal "x"),
      ((Choice.empty.push (.reference "a" none)).push (.reference "a" none)).push (.inline inner)]
      false [] none
  let a : Rule Rat :=
    .ofChoices [(Choice.empty.push (.reference "b" none)).push (.reference "b" none),
      { Choice.empty.push (.literal "p") with fixedWeight := some (1 / 2) }] false [] none
  let b : Rule Rat :=
    .ofChoices [Choice.empty.push (.literal "q"), Choice.empty.push (.literal "r")] true [] none
  (((empty.insert "main" main).1.insert "a" a).1.insert "b" b).1

theorem bind_shared_aggregates :
    shared.Reachable ∧ (shared.bind "main").1.start = some 0 ∧
      ∃ rule, (shared.bind "main").1.Below 0 rule ∧ rule.combinations = 76 ∧
        rule.weight = 247 / 4 ∧ (shared.bind "main").1.Aggregated rule := by
  have hshared : shared.Reachable := .insert _ _ _ (.insert _ _ _ (.insert _ _ _ .empty))
  have hstart : (shared.bind "main").1.start = some 0 := by decide
  have hrule : ∃ rule, (shared.bind "main").1.ruleAt? 0 = some rule := ⟨_, rfl⟩
  have hfound : ((shared.bind "main").1.ruleAt? 0).map
      (fun rule => (rule.combinations, rule.weight)) = some (76, 247 / 4) := by
    decide +kernel
  obtain ⟨rule, hat⟩ := hrule
  rw [hat, Option.map_some, Option.some.injEq, Prod.mk.injEq] at hfound
  have hbelow : (shared.bind "main").1.Below 0 rule := ⟨0, rule, .refl, hat, rule.self_mem_nested⟩
  exact ⟨hshared, hstart, rule, hbelow, hfound.1, hfound.2,
    bind_aggregates shared hshared "main" 0 hstart rule hbelow⟩

end Grammar

end PhraseGrammar
