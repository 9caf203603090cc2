import Mathlib.Data.List.Chain
import PhraseGrammar.Proofs.Rule.Nested
import PhraseGrammar.Reading.Lexeme

namespace PhraseGrammar

-- A name has letters, digits, underscores and points only, and one of them at
-- least.
def IsName (name : String) : Prop :=
  name ≠ "" ∧ ∀ character ∈ name.toList, Reading.isNameCharacter character

variable {ω : Type}

def Part.isLiteral : Part ω → Bool
  | .literal _ => true
  | .reference _ _ => false
  | .inline _ => false

-- No literal follows another one.
def Apart (parts : List (Part ω)) : Prop :=
  (parts.map Part.isLiteral).IsChain fun first second => first = true → second = false

-- Adding a part keeps literals apart, unless it is one after another.
theorem Apart.concat (parts : List (Part ω)) (h : Apart parts) (part : Part ω)
    (hlast : part.isLiteral → ∀ last ∈ parts.getLast?, last.isLiteral = false) :
    Apart (parts ++ [part]) := by
  unfold Apart
  rw [List.map_append, List.isChain_append]
  refine ⟨h, List.isChain_singleton _, ?_⟩
  intro first hfirst second hsecond hliteral
  rw [List.getLast?_map] at hfirst
  obtain ⟨last, hmem, rfl⟩ := Option.map_eq_some_iff.mp hfirst
  obtain rfl : part.isLiteral = second := by simpa using hsecond
  by_contra hpart
  have hother := hlast (by simpa using hpart) last hmem
  simp [hother] at hliteral

variable [Weight ω]

-- A weight that a numeral stands for.
def IsDecimal (weight : ω) : Prop :=
  ∃ digits places, weight = Weight.ofDecimal digits places

section WellFormed

variable (mayName : String → Prop)

mutual

-- A rule as it is read, at any depth: there are choices, the table fits them,
-- no literal is empty or follows another one, and nothing is linked or bound.
def Rule.WellFormed : Rule ω → Prop
  | ⟨choices, table, _, _, fixedWeight, mark⟩ =>
      (choices ≠ [] ∧ table.length = choices.length) ∧
        (∀ weight ∈ fixedWeight, IsDecimal weight) ∧ mark = .unbound ∧ ChoicesWellFormed choices

def ChoicesWellFormed : List (Choice ω) → Prop
  | [] => True
  | ⟨parts, _, fixedWeight, _⟩ :: rest =>
      (Apart parts ∧ PartsWellFormed parts ∧ ∀ weight ∈ fixedWeight, IsDecimal weight) ∧
        ChoicesWellFormed rest

def PartsWellFormed : List (Part ω) → Prop
  | [] => True
  | .literal text :: rest => text ≠ "" ∧ PartsWellFormed rest
  | .reference name link :: rest => (mayName name ∧ link = none) ∧ PartsWellFormed rest
  | .inline rule :: rest => rule.WellFormed ∧ PartsWellFormed rest

end

def Choice.WellFormed (choice : Choice ω) : Prop :=
  Apart choice.parts ∧ PartsWellFormed mayName choice.parts ∧
    ∀ weight ∈ choice.fixedWeight, IsDecimal weight

variable {mayName}

theorem choicesWellFormed_iff (choices : List (Choice ω)) :
    ChoicesWellFormed mayName choices ↔ ∀ choice ∈ choices, choice.WellFormed mayName := by
  induction choices with
  | nil => simp [ChoicesWellFormed]
  | cons choice rest ih =>
      rw [List.forall_mem_cons, ← ih]
      cases choice
      rfl

@[simp] theorem partsWellFormed_append (left right : List (Part ω)) :
    PartsWellFormed mayName (left ++ right) ↔
      PartsWellFormed mayName left ∧ PartsWellFormed mayName right := by
  induction left with
  | nil => simp [PartsWellFormed]
  | cons part rest ih => cases part <;> simp only [List.cons_append, PartsWellFormed, ih, and_assoc]

section Mono

variable {allowed : String → Prop}

mutual

theorem Rule.WellFormed.mono (h : ∀ name, mayName name → allowed name) : ∀ rule : Rule ω,
    rule.WellFormed mayName → rule.WellFormed allowed
  | ⟨choices, _, _, _, _, _⟩, ⟨hchoices, hweight, hmark, hinner⟩ =>
      ⟨hchoices, hweight, hmark, choicesWellFormed_mono h choices hinner⟩

theorem choicesWellFormed_mono (h : ∀ name, mayName name → allowed name) :
    ∀ choices : List (Choice ω), ChoicesWellFormed mayName choices →
      ChoicesWellFormed allowed choices
  | [], _ => trivial
  | ⟨parts, _, _, _⟩ :: rest, ⟨⟨hapart, hparts, hweight⟩, hrest⟩ =>
      ⟨⟨hapart, partsWellFormed_mono h parts hparts, hweight⟩, choicesWellFormed_mono h rest hrest⟩

theorem partsWellFormed_mono (h : ∀ name, mayName name → allowed name) :
    ∀ parts : List (Part ω), PartsWellFormed mayName parts → PartsWellFormed allowed parts
  | [], _ => trivial
  | .literal _ :: rest, ⟨htext, hrest⟩ => ⟨htext, partsWellFormed_mono h rest hrest⟩
  | .reference name _ :: rest, ⟨⟨hname, hlink⟩, hrest⟩ =>
      ⟨⟨h name hname, hlink⟩, partsWellFormed_mono h rest hrest⟩
  | .inline rule :: rest, ⟨hrule, hrest⟩ =>
      ⟨Rule.WellFormed.mono h rule hrule, partsWellFormed_mono h rest hrest⟩

end

end Mono

mutual

-- There is nothing to unlink in a rule as it is read.
theorem Rule.unlinked_of_wellFormed : ∀ rule : Rule ω, rule.WellFormed mayName →
    rule.unlinked = rule
  | ⟨choices, _, _, _, _, mark⟩, ⟨_, _, hmark, hinner⟩ => by
      rw [Rule.unlinked, unlinkedChoices_of_wellFormed choices hinner, hmark]

theorem unlinkedChoices_of_wellFormed : ∀ choices : List (Choice ω),
    ChoicesWellFormed mayName choices → unlinkedChoices choices = choices
  | [], _ => rfl
  | ⟨parts, _, _, _⟩ :: rest, ⟨⟨_, hparts, _⟩, hrest⟩ => by
      rw [unlinkedChoices, unlinkedParts_of_wellFormed parts hparts,
        unlinkedChoices_of_wellFormed rest hrest]

theorem unlinkedParts_of_wellFormed : ∀ parts : List (Part ω),
    PartsWellFormed mayName parts → unlinkedParts parts = parts
  | [], _ => rfl
  | .literal _ :: rest, ⟨_, hrest⟩ => by
      rw [unlinkedParts, unlinkedParts_of_wellFormed rest hrest]
  | .reference _ link :: rest, ⟨⟨_, hlink⟩, hrest⟩ => by
      rw [unlinkedParts, unlinkedParts_of_wellFormed rest hrest, hlink]
  | .inline rule :: rest, ⟨hrule, hrest⟩ => by
      rw [unlinkedParts, rule.unlinked_of_wellFormed hrule, unlinkedParts_of_wellFormed rest hrest]

end

mutual

theorem Rule.WellFormed.nested : ∀ rule : Rule ω, rule.WellFormed mayName →
    ∀ inner ∈ rule.nested, inner.WellFormed mayName
  | ⟨choices, _, _, _, _, _⟩, h, inner, hinner => by
      rw [Rule.nested] at hinner
      rcases List.mem_cons.mp hinner with rfl | hinner
      · exact h
      · exact wellFormed_nestedInChoices choices h.2.2.2 inner hinner

theorem wellFormed_nestedInChoices : ∀ choices : List (Choice ω),
    ChoicesWellFormed mayName choices →
      ∀ inner ∈ nestedInChoices choices, inner.WellFormed mayName
  | [], _, _, hinner => by simp [nestedInChoices] at hinner
  | ⟨parts, _, _, _⟩ :: rest, ⟨⟨_, hparts, _⟩, hrest⟩, inner, hinner => by
      rcases List.mem_append.mp hinner with hinner | hinner
      · exact wellFormed_nestedInParts parts hparts inner hinner
      · exact wellFormed_nestedInChoices rest hrest inner hinner

theorem wellFormed_nestedInParts : ∀ parts : List (Part ω),
    PartsWellFormed mayName parts → ∀ inner ∈ nestedInParts parts, inner.WellFormed mayName
  | [], _, _, hinner => by simp [nestedInParts] at hinner
  | .literal _ :: rest, ⟨_, hrest⟩, inner, hinner =>
      wellFormed_nestedInParts rest hrest inner hinner
  | .reference _ _ :: rest, ⟨_, hrest⟩, inner, hinner =>
      wellFormed_nestedInParts rest hrest inner hinner
  | .inline rule :: rest, ⟨hrule, hrest⟩, inner, hinner => by
      rcases List.mem_append.mp hinner with hinner | hinner
      · exact Rule.WellFormed.nested rule hrule inner hinner
      · exact wellFormed_nestedInParts rest hrest inner hinner

end

end WellFormed

end PhraseGrammar
