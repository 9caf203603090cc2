import PhraseGrammar.Proofs.Binding.Stack
import PhraseGrammar.Proofs.Derivation.Basic

namespace PhraseGrammar

variable {ω : Type} [Weight ω]

def Choice.tally (choice : Choice ω) : Tally ω := ⟨choice.product, choice.combinations⟩

namespace Grammar

-- What parts contribute to a choice, along with what those before them do.
def tallyFrom (grammar : Grammar ω) (tally : Tally ω) (parts : List (Part ω)) : Tally ω :=
  ((parts.filterMap grammar.ruleOf?).map Rule.tally).foldl Tally.times tally

-- The products, numbers and totals of a rule are those of the rules that its
-- parts lead to.
structure Tallied (grammar : Grammar ω) (rule : Rule ω) : Prop where
  choice (choice : Choice ω) (hchoice : choice ∈ rule.choices) :
    choice.tally = grammar.tallyFrom Tally.one choice.parts
  table : rule.table = runningTotals (rule.choices.map Choice.weight)

variable (grammar : Grammar ω)

theorem tallyFrom_skip (tally : Tally ω) (part : Part ω) (rest : List (Part ω))
    (h : grammar.ruleOf? part = none) :
    grammar.tallyFrom tally (part :: rest) = grammar.tallyFrom tally rest := by
  rw [tallyFrom, List.filterMap_cons_none h, tallyFrom]

theorem tallyFrom_rule (tally : Tally ω) (part : Part ω) (rest : List (Part ω)) (rule : Rule ω)
    (h : grammar.ruleOf? part = some rule) :
    grammar.tallyFrom tally (part :: rest) = grammar.tallyFrom (tally.times rule.tally) rest := by
  rw [tallyFrom, List.filterMap_cons_some h, List.map_cons, List.foldl_cons, tallyFrom]

theorem exists_ruleAt?_of_found (name : String) (index : Nat) (tally : Tally ω)
    (h : grammar.found name = some (index, tally)) :
    ∃ rule, grammar.ruleAt? index = some rule ∧ rule.tally = tally := by
  obtain ⟨place, hplace, hmap⟩ := Option.bind_eq_some_iff.mp h
  obtain ⟨rule, hrule, hsame⟩ := Option.map_eq_some_iff.mp hmap
  obtain ⟨rfl, htally⟩ := Prod.mk.inj hsame
  exact ⟨rule, (grammar.rule?_eq_ruleAt? name place hplace).symm.trans hrule, htally⟩

theorem tally_boundParts (parts : List (Part ω)) (tally : Tally ω) :
    (boundParts (fixedAnswer grammar.found) parts tally ()).2.1 =
      grammar.tallyFrom tally (boundParts (fixedAnswer grammar.found) parts tally ()).1 := by
  induction parts generalizing tally with
  | nil => rfl
  | cons part rest ih =>
      cases part with
      | literal text =>
          simp only [boundParts]
          rw [tallyFrom_skip _ _ _ _ rfl, ih]
      | inline rule =>
          simp only [boundParts]
          rw [tallyFrom_rule _ _ _ _ _ rfl, ih]
      | reference name link =>
          cases hname : grammar.found name with
          | none =>
              simp only [boundParts, fixedAnswer_eq _ _ _ hname]
              rw [tallyFrom_skip _ _ _ _ rfl, ih]
          | some entry =>
              obtain ⟨index, factor⟩ := entry
              obtain ⟨rule, hrule, rfl⟩ := grammar.exists_ruleAt?_of_found name index factor hname
              simp only [boundParts, fixedAnswer_eq _ _ _ hname]
              rw [tallyFrom_rule _ _ (.reference name (some index)) _ rule hrule, ih]

theorem tally_boundChoices (choices : List (Choice ω)) (choice : Choice ω)
    (h : choice ∈ (boundChoices (fixedAnswer grammar.found) choices ()).1) :
    choice.tally = grammar.tallyFrom Tally.one choice.parts := by
  induction choices with
  | nil => simp [boundChoices] at h
  | cons first rest ih =>
      obtain ⟨parts, _, fixedWeight, _⟩ := first
      rcases List.mem_cons.mp h with rfl | h
      · exact grammar.tally_boundParts parts Tally.one
      · exact ih h

mutual

-- Binding by what a grammar holds leaves every rule tallied, at any depth.
theorem tallied_bound : ∀ rule : Rule ω,
    ∀ inner ∈ (rule.bound (fixedAnswer grammar.found) ()).1.nested, grammar.Tallied inner
  | ⟨choices, _, _, _, _, _⟩, inner, hinner => by
      simp only [Rule.bound, Rule.nested, List.mem_cons] at hinner
      rcases hinner with rfl | hinner
      · exact ⟨grammar.tally_boundChoices choices, rfl⟩
      · exact tallied_boundChoices choices inner hinner

theorem tallied_boundChoices : ∀ choices : List (Choice ω),
    ∀ inner ∈ nestedInChoices (boundChoices (fixedAnswer grammar.found) choices ()).1,
      grammar.Tallied inner
  | [], _, hinner => by simp [boundChoices, nestedInChoices] at hinner
  | ⟨parts, _, _, _⟩ :: rest, inner, hinner => by
      simp only [boundChoices, nestedInChoices, List.mem_append] at hinner
      rcases hinner with hinner | hinner
      · exact tallied_boundParts parts _ inner hinner
      · exact tallied_boundChoices rest inner hinner

theorem tallied_boundParts : ∀ (parts : List (Part ω)) (tally : Tally ω),
    ∀ inner ∈ nestedInParts (boundParts (fixedAnswer grammar.found) parts tally ()).1,
      grammar.Tallied inner
  | [], _, _, hinner => by simp [boundParts, nestedInParts] at hinner
  | .literal _ :: rest, tally, inner, hinner => tallied_boundParts rest tally inner hinner
  | .inline rule :: rest, tally, inner, hinner => by
      simp only [boundParts, nestedInParts, List.mem_append] at hinner
      rcases hinner with hinner | hinner
      · exact tallied_bound rule inner hinner
      · exact tallied_boundParts rest _ inner hinner
  | .reference name _ :: rest, tally, inner, hinner => by
      rcases hf : fixedAnswer grammar.found name () with ⟨_ | ⟨index, factor⟩, next⟩ <;>
        simp only [boundParts, hf, nestedInParts] at hinner <;>
        exact tallied_boundParts rest _ inner hinner

end

variable {grammar}

theorem Stacked.tallied (order : List String) (h : grammar.Stacked order) (name : String)
    (hname : name ∈ order) (rule : Rule ω) (hrule : grammar.rule? name = some rule) :
    ∀ inner ∈ rule.nested, grammar.Tallied inner := by
  rw [← h.boundBy_found order name hname rule hrule]
  exact grammar.tallied_bound rule

theorem Tallied.length_table {rule : Rule ω} (h : grammar.Tallied rule) :
    rule.table.length = rule.choices.length := by
  simp [h.table]

theorem Tallied.weight_eq (rule : Rule ω) (h : grammar.Tallied rule) :
    rule.weight = rule.fixedWeight.getD ((rule.choices.map Choice.weight).foldl (· + ·) 0) := by
  rw [Rule.weight, Rule.total, h.table, lastTotal_runningTotals]

theorem weight_tallyFrom (tally : Tally ω) (parts : List (Part ω)) :
    (grammar.tallyFrom tally parts).weight =
      ((parts.filterMap grammar.ruleOf?).map Rule.weight).foldl (· * ·) tally.weight := by
  rw [tallyFrom]
  induction parts.filterMap grammar.ruleOf? generalizing tally with
  | nil => rfl
  | cons rule rest ih =>
      rw [List.map_cons, List.foldl_cons, ih, List.map_cons, List.foldl_cons]
      rfl

end Grammar

end PhraseGrammar
