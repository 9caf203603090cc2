import PhraseGrammar.Grammar.Generation
import PhraseGrammar.Proofs.Binding.Stack

namespace PhraseGrammar

variable {ω : Type} [Weight ω]

section Congruence

variable (follow other : Nat → Generation ω String) (context second : Context)
  (equalizeAll : Bool)

-- Every reference has the same texts on both sides: those of the rule that it
-- is linked to, or the one that the context has for its name.
def SameTexts (references : List (String × Option Nat)) : Prop :=
  (∀ name index, (name, some index) ∈ references → follow index = other index) ∧
    ∀ name, (name, none) ∈ references → context name = second name

variable {follow other context second}

section Fewer

omit [Weight ω]

theorem SameTexts.subset {references fewer : List (String × Option Nat)}
    (h : SameTexts follow other context second references) (hsub : fewer ⊆ references) :
    SameTexts follow other context second fewer :=
  ⟨fun name index hm => h.1 name index (hsub hm), fun name hm => h.2 name (hsub hm)⟩

theorem SameTexts.left {left right : List (String × Option Nat)}
    (h : SameTexts follow other context second (left ++ right)) :
    SameTexts follow other context second left :=
  h.subset (List.subset_append_left _ _)

theorem SameTexts.right {left right : List (String × Option Nat)}
    (h : SameTexts follow other context second (left ++ right)) :
    SameTexts follow other context second right :=
  h.subset (List.subset_append_right _ _)

theorem SameTexts.tail {first : String × Option Nat} {rest : List (String × Option Nat)}
    (h : SameTexts follow other context second (first :: rest)) :
    SameTexts follow other context second rest :=
  h.subset (List.subset_cons_self _ _)

end Fewer

mutual

-- Generation from a rule hangs on the rules that it is linked to, and on what
-- the context has for the names without a link.
theorem Rule.generate_congr : ∀ rule : Rule ω,
    SameTexts follow other context second rule.references →
    rule.generate follow context equalizeAll = rule.generate other second equalizeAll
  | ⟨choices, _, _, _, _, _⟩, h => by
      simp only [Rule.generate, generateChoice_congr choices _ h]

theorem generateChoice_congr : ∀ (choices : List (Choice ω)) (selected : Nat),
    SameTexts follow other context second (referencesOfChoices choices) →
    generateChoice follow context equalizeAll choices selected =
      generateChoice other second equalizeAll choices selected
  | [], _, _ => rfl
  | ⟨parts, _, _, _⟩ :: _, 0, h => generateParts_congr parts h.left
  | ⟨_, _, _, _⟩ :: rest, selected + 1, h => generateChoice_congr rest selected h.right

theorem generateParts_congr : ∀ parts : List (Part ω),
    SameTexts follow other context second (referencesOfParts parts) →
    generateParts follow context equalizeAll parts = generateParts other second equalizeAll parts
  | [], _ => rfl
  | .literal _ :: rest, h => by
      simp only [generateParts, generateParts_congr rest h]
  | .inline rule :: rest, h => by
      simp only [generateParts, rule.generate_congr h.left, generateParts_congr rest h.right]
  | .reference name (some index) :: rest, h => by
      simp only [generateParts, h.1 name index List.mem_cons_self,
        generateParts_congr rest h.tail]
  | .reference name none :: rest, h => by
      simp only [generateParts, h.2 name List.mem_cons_self, generateParts_congr rest h.tail]

end

end Congruence

namespace Grammar

variable {grammar : Grammar ω} (order : List String) (h : grammar.Stacked order)
  (context : Context) (equalizeAll : Bool)

include h

-- The links lead down the stack, so a depth as great as the stack is enough.
theorem Stacked.generateAt_succ (depth : Nat) (hdepth : order.length ≤ depth) (name : String)
    (hname : name ∈ order) (index : Nat) (hindex : grammar.indexOf? name = some index) :
    grammar.generateAt context equalizeAll (depth + 1) index =
      grammar.generateAt context equalizeAll depth index := by
  induction h generalizing depth name index with
  | nil => simp at hname
  | cons first rule older hrule hbound hnew hbelow holder ih =>
      rcases List.mem_cons.mp hname with rfl | hname
      · obtain ⟨less, rfl⟩ : ∃ less, depth = less + 1 :=
          Nat.exists_eq_add_one_of_ne_zero (by simp at hdepth; omega)
        have hat := (grammar.rule?_eq_ruleAt? name index hindex).symm.trans hrule
        rw [generateAt, hat, generateAt, hat]
        refine rule.generate_congr equalizeAll ⟨fun other place hreference => ?_, fun _ _ => rfl⟩
        have hstack := Stacked.cons name rule older hrule hbound hnew hbelow holder
        obtain ⟨hmem, hplace⟩ := hstack.mem_of_link name older rule hrule other place hreference
        exact ih less (Nat.le_of_succ_le_succ hdepth) other hmem place hplace
      · exact ih depth (Nat.le_of_succ_le hdepth) name hname index hindex

-- Generation at the greatest depth goes on at the greatest depth.
theorem Stacked.generateAt_eq (name : String) (hname : name ∈ order) (index : Nat)
    (hindex : grammar.indexOf? name = some index) (rule : Rule ω)
    (hrule : grammar.rule? name = some rule) :
    grammar.generateAt context equalizeAll grammar.assignments.length index =
      rule.generate (grammar.generateAt context equalizeAll grammar.assignments.length) context
        equalizeAll := by
  have hat := (grammar.rule?_eq_ruleAt? name index hindex).symm.trans hrule
  rw [← h.generateAt_succ order context equalizeAll _ (h.length_le order) name hname index hindex]
  rw [generateAt, hat]

end Grammar

end PhraseGrammar
