import PhraseGrammar.Proofs.Binding.Agreement
import PhraseGrammar.Proofs.Binding.Content
import PhraseGrammar.Proofs.Binding.Weightless
import PhraseGrammar.Proofs.Generation.Safety

namespace PhraseGrammar

variable {ω : Type} [Weight ω]

-- With equal chances a table says no more than how many entries there are.
theorem selectEntry_of_length (table other : List ω) (h : table.length = other.length)
    (source : Source ω) : selectEntry table true source = selectEntry other true source := by
  match table, other, h with
  | [], [], _ => rfl
  | [_], [_], _ => rfl
  | _ :: _ :: _, _ :: _ :: _, h => simp only [selectEntry, entryAt, h, if_true]

theorem Generation.select_of_length (table other : List ω) (h : table.length = other.length) :
    Generation.select table true = Generation.select other true := by
  funext source
  rw [Generation.select, selectEntry_of_length table other h, Generation.select]

-- All choices in the rule have the same chance, those in inline rules too.
def Rule.Level (equalizeAll : Bool) (rule : Rule ω) : Prop :=
  ∀ inner ∈ rule.nested, (inner.equalized || equalizeAll) = true

section Weightless

variable (follow : Nat → Generation ω String) (context : Context) (equalizeAll : Bool)

mutual

-- Where all choices have the same chance, weights make no difference.
theorem Rule.generate_weightless : ∀ rule : Rule ω, rule.Level equalizeAll →
    rule.weightless.generate follow context equalizeAll =
      rule.generate follow context equalizeAll
  | ⟨choices, table, equalized, _, _, _⟩, h => by
      rw [Rule.Level, Rule.nested, List.forall_mem_cons] at h
      obtain ⟨hown, hinner⟩ := h
      have hselect := Generation.select_of_length (table.map fun _ => 0) table
        (List.length_map _)
      simp only [Rule.weightless, Rule.generate, hown, hselect,
        generateChoice_weightless choices _ hinner]

theorem generateChoice_weightless : ∀ (choices : List (Choice ω)) (selected : Nat),
    (∀ inner ∈ nestedInChoices choices, (inner.equalized || equalizeAll) = true) →
    generateChoice follow context equalizeAll (weightlessChoices choices) selected =
      generateChoice follow context equalizeAll choices selected
  | [], _, _ => rfl
  | ⟨parts, _, _, _⟩ :: _, 0, h =>
      generateParts_weightless parts fun inner hinner => h inner (List.mem_append_left _ hinner)
  | ⟨_, _, _, _⟩ :: rest, selected + 1, h =>
      generateChoice_weightless rest selected fun inner hinner =>
        h inner (List.mem_append_right _ hinner)

theorem generateParts_weightless : ∀ parts : List (Part ω),
    (∀ inner ∈ nestedInParts parts, (inner.equalized || equalizeAll) = true) →
    generateParts follow context equalizeAll (weightlessParts parts) =
      generateParts follow context equalizeAll parts
  | [], _ => rfl
  | .literal _ :: rest, h => by
      simp only [weightlessParts, generateParts, generateParts_weightless rest h]
  | .reference _ (some _) :: rest, h => by
      simp only [weightlessParts, generateParts, generateParts_weightless rest h]
  | .reference _ none :: rest, h => by
      simp only [weightlessParts, generateParts, generateParts_weightless rest h]
  | .inline rule :: rest, h => by
      rw [nestedInParts, List.forall_mem_append] at h
      simp only [weightlessParts, generateParts, rule.generate_weightless h.1,
        generateParts_weightless rest h.2]

end

end Weightless

theorem Rule.level_weightless_iff (equalizeAll : Bool) (rule : Rule ω) :
    rule.weightless.Level equalizeAll ↔ rule.Level equalizeAll := by
  simp only [Level, rule.nested_weightless, List.forall_mem_map]
  refine forall₂_congr fun inner _ => ?_
  cases inner
  rfl

theorem Rule.level_content_iff (equalizeAll : Bool) (rule : Rule ω) :
    rule.content.Level equalizeAll ↔ rule.Level equalizeAll := by
  simp only [Level, rule.nested_content, List.forall_mem_map]
  refine forall₂_congr fun inner _ => ?_
  cases inner
  rfl

omit [Weight ω] in
theorem Rule.level_of_equalizeAll (rule : Rule ω) : rule.Level true :=
  fun _ _ => Bool.or_true _

namespace Grammar

-- Every rule that the links lead to from a position gives its choices the same
-- chance.
def LevelFrom (grammar : Grammar ω) (start : Nat) (equalizeAll : Bool) : Prop :=
  ∀ index rule, Relation.ReflTransGen grammar.LinksTo start index →
    grammar.ruleAt? index = some rule → rule.Level equalizeAll

section SameButWeights

variable {grammar other : Grammar ω} (h : grammar.SameButWeights other)

include h

theorem SameButWeights.generateAt_eq (context : Context) (equalizeAll : Bool) (start : Nat)
    (hlevel : grammar.LevelFrom start equalizeAll) (depth index : Nat)
    (hlinks : Relation.ReflTransGen grammar.LinksTo start index) :
    grammar.generateAt context equalizeAll depth index =
      other.generateAt context equalizeAll depth index := by
  induction depth generalizing index with
  | zero => rfl
  | succ depth ih =>
      rcases Rule.alike_cases (grammar.ruleAt? index) (other.ruleAt? index)
        (Assignment.rules_eq h.assignments index) with
        ⟨hleft, hright⟩ | ⟨rule, rule', hleft, hright, hrule⟩
      · rw [generateAt, hleft, generateAt, hright]
      · have hown := hlevel index rule hlinks hleft
        have hown' : rule'.Level equalizeAll := by
          rwa [← rule'.level_weightless_iff, ← hrule, rule.level_weightless_iff]
        have hbelow : SameTexts (grammar.generateAt context equalizeAll depth)
            (other.generateAt context equalizeAll depth) context context rule.references :=
          ⟨fun name place hreference => ih place (hlinks.tail ⟨rule, name, hleft, hreference⟩),
            fun _ _ => rfl⟩
        rw [generateAt, hleft, generateAt, hright]
        calc rule.generate (grammar.generateAt context equalizeAll depth) context equalizeAll
            = rule.generate (other.generateAt context equalizeAll depth) context equalizeAll :=
              rule.generate_congr equalizeAll hbelow
          _ = rule.weightless.generate (other.generateAt context equalizeAll depth) context
                equalizeAll := (rule.generate_weightless _ _ _ hown).symm
          _ = rule'.weightless.generate (other.generateAt context equalizeAll depth) context
                equalizeAll := by rw [hrule]
          _ = rule'.generate (other.generateAt context equalizeAll depth) context equalizeAll :=
              rule'.generate_weightless _ _ _ hown'

theorem SameButWeights.generate_eq (context : Context) (equalizeAll : Bool)
    (hlevel : ∀ start, grammar.start = some start → grammar.LevelFrom start equalizeAll) :
    grammar.generate context equalizeAll = other.generate context equalizeAll := by
  cases hstart : grammar.start with
  | none => rw [generate, hstart, generate, ← h.start, hstart]
  | some start =>
      rw [generate, hstart, generate, ← h.start, hstart, ← h.length_eq]
      exact h.generateAt_eq context equalizeAll start (hlevel start hstart) _ start .refl

theorem SameButWeights.combinations_eq : grammar.combinations = other.combinations := by
  rw [combinations, combinations, startRule?, startRule?, ← h.start]
  cases grammar.start with
  | none => rfl
  | some index =>
      have hrules : (grammar.ruleAt? index).map Rule.combinations =
          (other.ruleAt? index).map Rule.combinations :=
        Rule.combinations_of_alike _ _ (Assignment.rules_eq h.assignments index)
      rw [Option.bind_some, Option.bind_some, hrules]

end SameButWeights

-- Every rule of a name that can be reached from the start gives its choices
-- the same chance.
def LevelBelow (grammar : Grammar ω) (start : String) (equalizeAll : Bool) : Prop :=
  ∀ name rule, Relation.ReflTransGen grammar.Mentions start name →
    grammar.rule? name = some rule → rule.Level equalizeAll

section Bind

variable (grammar : Grammar ω) (h : grammar.Settled) (start : String)

include h

-- Binding leaves what a rule says as it is.
theorem exists_rule?_of_bind (name : String) (rule : Rule ω)
    (hrule : (grammar.bind start).1.rule? name = some rule) :
    ∃ own, grammar.rule? name = some own ∧ own.content = rule.content := by
  have hcontent := grammar.content_bind h start name
  rwa [hrule, Option.map_some, eq_comm, Option.map_eq_some_iff] at hcontent

theorem mentions_of_refers_bind (name next : String)
    (hrefers : (grammar.bind start).1.Refers name next) : grammar.Mentions name next := by
  obtain ⟨rule, hrule, hmention, _⟩ := hrefers
  obtain ⟨own, hown, hsame⟩ := grammar.exists_rule?_of_bind h start name rule hrule
  refine ⟨own, hown, ?_⟩
  rwa [← own.mentions_content, hsame, rule.mentions_content]

-- The links of a bound grammar lead along the names of the grammar.
theorem LevelBelow.levelFrom (equalizeAll : Bool) (hlevel : grammar.LevelBelow start equalizeAll)
    (index : Nat) (hindex : (grammar.bind start).1.start = some index) :
    (grammar.bind start).1.LevelFrom index equalizeAll := by
  obtain ⟨hplace, order, hstack, _, hmem, _⟩ := grammar.exists_stack h start index hindex
  rw [indexOf?, ← grammar.names_bind start h, ← indexOf?] at hplace
  intro other rule hlinks hat
  obtain ⟨name, _, hname, hreach⟩ := hstack.reaches_of_links start hmem index other hplace hlinks
  have hmentions : Relation.ReflTransGen grammar.Mentions start name :=
    Relation.ReflTransGen.mono (grammar.mentions_of_refers_bind h start) _ _ hreach
  obtain ⟨own, hown, hsame⟩ := grammar.exists_rule?_of_bind h start name rule
    ((rule?_eq_ruleAt? _ name other hname).trans hat)
  have hlevelled := hlevel name own hmentions hown
  rwa [← own.level_content_iff, hsame, rule.level_content_iff] at hlevelled

end Bind

-- Weights make no difference where all choices have the same chance: to what
-- binding reports, whether it succeeds, how many combinations there are, and
-- to the phrases and the draws that they take. Either all choices are given
-- the same chance, or those that can be reached say so themselves.
theorem weights_are_irrelevant (grammar other : Grammar ω) (h : grammar.SameButWeights other)
    (start : String) :
    (grammar.bind start).2 = (other.bind start).2 ∧
      (grammar.bind start).1.start = (other.bind start).1.start ∧
      (grammar.bind start).1.combinations = (other.bind start).1.combinations ∧
      (∀ context, (grammar.bind start).1.generate context true =
        (other.bind start).1.generate context true) ∧
      (grammar.Reachable → grammar.LevelBelow start false → ∀ context,
        (grammar.bind start).1.generate context false =
          (other.bind start).1.generate context false) := by
  obtain ⟨hreports, hbound⟩ := h.bind start
  refine ⟨hreports, hbound.start, hbound.combinations_eq, fun context => ?_,
    fun hreachable hlevel context => ?_⟩
  · exact hbound.generate_eq context true fun _ _ _ rule _ _ => rule.level_of_equalizeAll
  · exact hbound.generate_eq context false (hlevel.levelFrom grammar hreachable.settled start false)

-- Two ways to say "a" or a name, with the given weights at every place for one.
def weighed (first second third : Option Float) : Grammar Float :=
  let inner := Rule.ofChoices [{ Choice.empty.push (.literal "x") with fixedWeight := first },
    Choice.empty.push (.literal "y")] true [] second
  let main := Rule.ofChoices [{ Choice.empty.push (.literal "a") with fixedWeight := third },
    (Choice.empty.push (.reference "name" none)).push (.inline inner)] true [] first
  let name := Rule.ofChoices [Choice.empty.push (.literal "b")] true [] third
  ((empty.insert "main" main).1.insert "name" name).1

-- No weight at all against zero, infinity and what is not a number.
theorem odd_weights_are_irrelevant :
    (weighed none none none).SameButWeights (weighed (some 0) (some (1 / 0)) (some (0 / 0))) ∧
      (weighed none none none).LevelBelow "main" false ∧
      ((weighed none none none).bind "main").1.combinations =
        ((weighed (some 0) (some (1 / 0)) (some (0 / 0))).bind "main").1.combinations ∧
      ∀ context, ((weighed none none none).bind "main").1.generate context false =
        ((weighed (some 0) (some (1 / 0)) (some (0 / 0))).bind "main").1.generate context
          false := by
  have hsame : (weighed none none none).SameButWeights
      (weighed (some 0) (some (1 / 0)) (some (0 / 0))) := ⟨rfl, rfl, rfl⟩
  have hreachable : (weighed none none none).Reachable := .insert _ _ _ (.insert _ _ _ .empty)
  have hlevel : (weighed none none none).LevelBelow "main" false := by
    have hall : (weighed none none none).assignments.all
        (·.rule.nested.all fun inner => inner.equalized || false) = true := rfl
    intro name rule _ hrule
    rw [rule?_eq_find?] at hrule
    obtain ⟨assignment, hfound, rfl⟩ := Option.map_eq_some_iff.mp hrule
    have hnested := List.all_eq_true.mp hall assignment (List.mem_of_find?_eq_some hfound)
    exact List.all_eq_true.mp hnested
  obtain ⟨_, _, hcombinations, _, hgenerate⟩ :=
    weights_are_irrelevant _ _ hsame "main"
  exact ⟨hsame, hlevel, hcombinations, hgenerate hreachable hlevel⟩

end Grammar

end PhraseGrammar
