import PhraseGrammar.Rule.Basic

namespace PhraseGrammar

variable {ω : Type}

mutual

-- The references of a rule with their links, from left to right, those inside
-- inline rules included.
def Rule.references : Rule ω → List (String × Option Nat)
  | ⟨choices, _, _, _, _, _⟩ => referencesOfChoices choices

def referencesOfChoices : List (Choice ω) → List (String × Option Nat)
  | [] => []
  | ⟨parts, _, _, _⟩ :: rest => referencesOfParts parts ++ referencesOfChoices rest

def referencesOfParts : List (Part ω) → List (String × Option Nat)
  | [] => []
  | .literal _ :: rest => referencesOfParts rest
  | .reference name link :: rest => (name, link) :: referencesOfParts rest
  | .inline rule :: rest => rule.references ++ referencesOfParts rest

end

-- The names that a rule refers to, each as often as it does.
def Rule.mentions (rule : Rule ω) : List String :=
  rule.references.map Prod.fst

mutual

-- The rule and the inline rules in it, at any depth.
def Rule.nested : Rule ω → List (Rule ω)
  | ⟨choices, table, equalized, substitutions, fixedWeight, mark⟩ =>
      ⟨choices, table, equalized, substitutions, fixedWeight, mark⟩ :: nestedInChoices choices

def nestedInChoices : List (Choice ω) → List (Rule ω)
  | [] => []
  | ⟨parts, _, _, _⟩ :: rest => nestedInParts parts ++ nestedInChoices rest

def nestedInParts : List (Part ω) → List (Rule ω)
  | [] => []
  | .literal _ :: rest => nestedInParts rest
  | .reference _ _ :: rest => nestedInParts rest
  | .inline rule :: rest => rule.nested ++ nestedInParts rest

end

@[simp] theorem Rule.marked_mark (rule : Rule ω) : rule.marked rule.mark = rule := by
  cases rule
  rfl

@[simp] theorem Rule.marked_marked (rule : Rule ω) (mark other : Mark) :
    (rule.marked mark).marked other = rule.marked other := rfl

@[simp] theorem Rule.references_marked (rule : Rule ω) (mark : Mark) :
    (rule.marked mark).references = rule.references := by
  cases rule
  rfl

@[simp] theorem Rule.mentions_marked (rule : Rule ω) (mark : Mark) :
    (rule.marked mark).mentions = rule.mentions :=
  congrArg (List.map Prod.fst) (rule.references_marked mark)

end PhraseGrammar
