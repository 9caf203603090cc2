import PhraseGrammar.Grammar.Basic
import PhraseGrammar.Selection

namespace PhraseGrammar

-- Why a generation ends without a phrase. Only the first can happen to a
-- grammar that has been bound.
inductive Abort where
  | failedTransform (message : String)
  | missingRule (index : Nat)
  | missingChoice (index : Nat)
  | endlessLinks
  deriving DecidableEq, Repr

def Abort.message : Abort → String
  | failedTransform message => message
  | missingRule _ => "missing rule"
  | missingChoice _ => "missing choice"
  | endlessLinks => "endless links"

-- A generation draws from a source. The source stays where it is when the
-- generation ends, with a phrase or without.
abbrev Generation (ω : Type) := ExceptT Abort (StateM (Source ω))

abbrev Context := String → Option String

namespace Context

def empty : Context := fun _ => none

-- Of two entries for one name the later counts.
def ofList (entries : List (String × String)) : Context :=
  fun name => entries.reverse.lookup name

end Context

def nilPhrase : String := "nil"

variable {ω : Type} [Weight ω]

def Generation.select (table : List ω) (equalized : Bool) : Generation ω (Option Nat) :=
  fun source => match selectEntry table equalized source with
    | (index, source) => (.ok index, source)

def Generation.transform (transforms : List Transform) (text : String) : Generation ω String :=
  match applyAll transforms text with
  | .ok text => pure text
  | .error message => throw (.failedTransform message)

section Parts

variable (follow : Nat → Generation ω String) (context : Context) (equalizeAll : Bool)

mutual

-- Generates a text from a rule: selects a choice, generates its parts in
-- order, and applies the substitutions to the whole. A rule without choices
-- has the empty text to apply them to.
def Rule.generate : Rule ω → Generation ω String
  | ⟨choices, table, equalized, substitutions, _, _⟩ => do
      match ← Generation.select table (equalized || equalizeAll) with
      | none => Generation.transform substitutions ""
      | some index =>
          let text ← generateChoice choices index
          Generation.transform substitutions text

def generateChoice : List (Choice ω) → Nat → Generation ω String
  | [], index => throw (.missingChoice index)
  | ⟨parts, _, _, _⟩ :: _, 0 => generateParts parts
  | _ :: rest, index + 1 => generateChoice rest index

def generateParts : List (Part ω) → Generation ω String
  | [] => pure ""
  | .literal text :: rest => return text ++ (← generateParts rest)
  | .inline rule :: rest => return (← Rule.generate rule) ++ (← generateParts rest)
  | .reference _ (some index) :: rest => return (← follow index) ++ (← generateParts rest)
  | .reference name none :: rest =>
      return (context name).getD name ++ (← generateParts rest)

end

end Parts

namespace Grammar

-- Generates a text from the rule at a position. In a bound grammar the links
-- form no cycle, so `depth` need not exceed the number of assignments.
def generateAt (grammar : Grammar ω) (context : Context) (equalizeAll : Bool) :
    (depth : Nat) → Nat → Generation ω String
  | 0, _ => throw .endlessLinks
  | depth + 1, index =>
      match grammar.ruleAt? index with
      | none => throw (.missingRule index)
      | some rule =>
          rule.generate (generateAt grammar context equalizeAll depth) context equalizeAll

-- Generates a phrase. With `equalizeAll` every choice has the same chance.
def generate (grammar : Grammar ω) (context : Context) (equalizeAll : Bool) :
    Generation ω String :=
  match grammar.start with
  | none => pure nilPhrase
  | some index => grammar.generateAt context equalizeAll grammar.assignments.length index

end Grammar

end PhraseGrammar
