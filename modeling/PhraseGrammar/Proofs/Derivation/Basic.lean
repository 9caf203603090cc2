import PhraseGrammar.Grammar.Basic

namespace PhraseGrammar

mutual

-- How a text comes about from a rule: which choice is taken, and what becomes
-- of its parts. There is nothing to take from a rule without choices.
inductive Derivation (ω : Type) where
  | nothing (rule : Rule ω)
  | choice (rule : Rule ω) (index : Nat) (pieces : List (Piece ω))

-- What becomes of a part. A name outside of the grammar is left to the context.
inductive Piece (ω : Type) where
  | literal (text : String)
  | outside (name : String)
  | derived (derivation : Derivation ω)

end

variable {ω : Type}

mutual

-- The rules that a choice is taken from, with the place of the choice: first
-- the rule itself, then those that its parts lead to, from left to right.
def Derivation.choicePoints : Derivation ω → List (Rule ω × Nat)
  | .nothing _ => []
  | .choice rule index pieces => (rule, index) :: choicePointsOfPieces pieces

def choicePointsOfPieces : List (Piece ω) → List (Rule ω × Nat)
  | [] => []
  | .literal _ :: rest => choicePointsOfPieces rest
  | .outside _ :: rest => choicePointsOfPieces rest
  | .derived derivation :: rest => derivation.choicePoints ++ choicePointsOfPieces rest

end

mutual

-- Every rule in the derivation has a choice to take.
def Derivation.Complete : Derivation ω → Prop
  | .nothing _ => False
  | .choice _ _ pieces => CompletePieces pieces

def CompletePieces : List (Piece ω) → Prop
  | [] => True
  | .literal _ :: rest => CompletePieces rest
  | .outside _ :: rest => CompletePieces rest
  | .derived derivation :: rest => derivation.Complete ∧ CompletePieces rest

end

namespace Grammar

-- The rule that a part leads to: an inline rule, or the one that a reference
-- is linked to.
def ruleOf? (grammar : Grammar ω) : Part ω → Option (Rule ω)
  | .literal _ => none
  | .reference _ none => none
  | .reference _ (some index) => grammar.ruleAt? index
  | .inline rule => some rule

mutual

-- The derivations of a rule: one choice, and one derivation for each of its
-- parts that leads to a rule.
inductive Derives (grammar : Grammar ω) : Rule ω → Derivation ω → Prop
  | nothing (rule : Rule ω) (hchoices : rule.choices = []) : Derives grammar rule (.nothing rule)
  | choice (rule : Rule ω) (index : Nat) (choice : Choice ω) (pieces : List (Piece ω))
      (hchoice : rule.choices[index]? = some choice)
      (hpieces : Expands grammar choice.parts pieces) :
      Derives grammar rule (.choice rule index pieces)

inductive Expands (grammar : Grammar ω) : List (Part ω) → List (Piece ω) → Prop
  | nil : Expands grammar [] []
  | literal (text : String) (parts : List (Part ω)) (pieces : List (Piece ω))
      (hrest : Expands grammar parts pieces) :
      Expands grammar (.literal text :: parts) (.literal text :: pieces)
  | outside (name : String) (parts : List (Part ω)) (pieces : List (Piece ω))
      (hrest : Expands grammar parts pieces) :
      Expands grammar (.reference name none :: parts) (.outside name :: pieces)
  | derived (part : Part ω) (rule : Rule ω) (derivation : Derivation ω) (parts : List (Part ω))
      (pieces : List (Piece ω)) (hpart : grammar.ruleOf? part = some rule)
      (hderivation : Derives grammar rule derivation) (hrest : Expands grammar parts pieces) :
      Expands grammar (part :: parts) (.derived derivation :: pieces)

end

-- A list that holds every complete derivation of a rule once.
structure Enumerates (grammar : Grammar ω) (rule : Rule ω) (all : List (Derivation ω)) : Prop where
  nodup : all.Nodup
  mem_iff (derivation : Derivation ω) :
    derivation ∈ all ↔ grammar.Derives rule derivation ∧ derivation.Complete

end Grammar

end PhraseGrammar
