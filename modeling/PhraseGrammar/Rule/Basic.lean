import PhraseGrammar.Combinations
import PhraseGrammar.Transform

namespace PhraseGrammar

-- Where a rule stands in the binding of its grammar: never bound, being bound,
-- or bound last by the pass with the given number.
inductive Mark where
  | unbound
  | inProgress
  | bound (pass : Nat)
  deriving DecidableEq, Repr

mutual

-- One alternative of a rule: parts that follow one another. `product` and
-- `combinations` are what binding has found for the parts.
structure Choice (ω : Type) where
  parts : List (Part ω)
  product : ω
  fixedWeight : Option ω
  combinations : Nat

-- Alternatives to select from, with the running totals of their weights, and
-- the substitutions that the selected one goes through. The mark of a rule
-- inside another one is never asked for.
structure Rule (ω : Type) where
  choices : List (Choice ω)
  table : List ω
  equalized : Bool
  substitutions : List Transform
  fixedWeight : Option ω
  mark : Mark

-- A piece of a choice. Binding links a reference to the position of the rule
-- that has its name; one without a link is left to the context.
inductive Part (ω : Type) where
  | literal (text : String)
  | reference (name : String) (link : Option Nat)
  | inline (rule : Rule ω)

end

variable {ω : Type}

namespace Choice

def empty [Weight ω] : Choice ω := ⟨[], 1, none, 1⟩

def push (choice : Choice ω) (part : Part ω) : Choice ω :=
  { choice with parts := choice.parts ++ [part] }

@[simp] theorem parts_push (choice : Choice ω) (part : Part ω) :
    (choice.push part).parts = choice.parts ++ [part] := rfl

-- No choice holds an empty literal.
def pushLiteral (choice : Choice ω) (text : String) : Choice ω :=
  if text = "" then choice else choice.push (.literal text)

def weight (choice : Choice ω) : ω :=
  choice.fixedWeight.getD choice.product

end Choice

namespace Rule

-- Until it is bound, every choice of a rule counts as one.
def ofChoices [Weight ω] (choices : List (Choice ω)) (equalized : Bool)
    (substitutions : List Transform) (fixedWeight : Option ω) : Rule ω where
  choices := choices
  table := runningTotals (choices.map fun _ => 1)
  equalized := equalized
  substitutions := substitutions
  fixedWeight := fixedWeight
  mark := .unbound

def total [Weight ω] (rule : Rule ω) : ω := lastTotal rule.table

def weight [Weight ω] (rule : Rule ω) : ω :=
  rule.fixedWeight.getD rule.total

def combinations (rule : Rule ω) : Nat :=
  totalCombinations (rule.choices.map Choice.combinations)

def tally [Weight ω] (rule : Rule ω) : Tally ω := ⟨rule.weight, rule.combinations⟩

def marked (rule : Rule ω) (mark : Mark) : Rule ω := { rule with mark := mark }

@[simp] theorem mark_marked (rule : Rule ω) (mark : Mark) : (rule.marked mark).mark = mark := rfl

end Rule

mutual

-- The rule without the links and the marks that an earlier binding has made.
def Rule.unlinked : Rule ω → Rule ω
  | ⟨choices, table, equalized, substitutions, fixedWeight, _⟩ =>
      ⟨unlinkedChoices choices, table, equalized, substitutions, fixedWeight, .unbound⟩

def unlinkedChoices : List (Choice ω) → List (Choice ω)
  | [] => []
  | ⟨parts, product, fixedWeight, combinations⟩ :: rest =>
      ⟨unlinkedParts parts, product, fixedWeight, combinations⟩ :: unlinkedChoices rest

def unlinkedParts : List (Part ω) → List (Part ω)
  | [] => []
  | .literal text :: rest => .literal text :: unlinkedParts rest
  | .reference name _ :: rest => .reference name none :: unlinkedParts rest
  | .inline rule :: rest => .inline rule.unlinked :: unlinkedParts rest

end

end PhraseGrammar
