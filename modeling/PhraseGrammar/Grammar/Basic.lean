import PhraseGrammar.Diagnostic
import PhraseGrammar.Rule.Basic

namespace PhraseGrammar

structure Assignment (ω : Type) where
  name : String
  rule : Rule ω

-- Assignments in the order of their definition. `start` is the position of
-- the rule that phrases are generated from, once the grammar is bound, and
-- `passes` the number of the last binding pass.
structure Grammar (ω : Type) where
  assignments : List (Assignment ω)
  start : Option Nat
  passes : Nat

-- A name that begins with an underscore is seen only where it is defined.
def isLocal (name : String) : Bool :=
  name.toList.head? == some '_'

namespace Grammar

variable {ω : Type}

def empty : Grammar ω := ⟨[], none, 0⟩

def names (grammar : Grammar ω) : List String :=
  grammar.assignments.map Assignment.name

-- The position of a name. It is looked for in the list itself, no map from
-- names to positions is kept beside it.
def indexOf? (grammar : Grammar ω) (name : String) : Option Nat :=
  grammar.names.findIdx? (· == name)

def ruleAt? (grammar : Grammar ω) (index : Nat) : Option (Rule ω) :=
  grammar.assignments[index]?.map Assignment.rule

def rule? (grammar : Grammar ω) (name : String) : Option (Rule ω) :=
  (grammar.indexOf? name).bind grammar.ruleAt?

def nameAt? (grammar : Grammar ω) (index : Nat) : Option String :=
  grammar.names[index]?

-- Adds an assignment and forgets the binding. A name that is assigned keeps
-- its rule, and the refusal is returned.
def insert (grammar : Grammar ω) (name : String) (rule : Rule ω) :
    Grammar ω × Option Diagnostic :=
  match grammar.indexOf? name with
  | some _ => ({ grammar with start := none }, some (.duplicate name))
  | none =>
      ({ grammar with
        assignments := grammar.assignments ++ [⟨name, rule.unlinked⟩], start := none }, none)

-- The assignments after `assignment` has replaced the one with its name, or
-- has been added at the end.
def overwrite (assignments : List (Assignment ω)) (assignment : Assignment ω) :
    List (Assignment ω) × List Diagnostic :=
  match assignments.findIdx? (·.name == assignment.name) with
  | some index => (assignments.set index assignment, [.duplicate assignment.name])
  | none => (assignments ++ [assignment], [])

def overwriteAll (assignments : List (Assignment ω)) :
    List (Assignment ω) → List (Assignment ω) × List Diagnostic
  | [] => (assignments, [])
  | ⟨name, rule⟩ :: rest =>
      let (assignments, reports) := overwrite assignments ⟨name, rule.unlinked⟩
      let (assignments, more) := overwriteAll assignments rest
      (assignments, reports ++ more)

-- Takes over every assignment of `other`. A name assigned in both gets the
-- rule of `other`, which is reported.
def merge (grammar other : Grammar ω) : Grammar ω × List Diagnostic :=
  let (assignments, reports) := overwriteAll grammar.assignments other.assignments
  ({ grammar with assignments := assignments, start := none }, reports)

def startRule? (grammar : Grammar ω) : Option (Rule ω) :=
  grammar.start.bind grammar.ruleAt?

def startName? (grammar : Grammar ω) : Option String :=
  grammar.start.bind grammar.nameAt?

-- The weight of the start rule, nothing for a grammar that is not bound.
def weight [Weight ω] (grammar : Grammar ω) : ω :=
  (grammar.startRule?.map Rule.weight).getD 0

def combinations (grammar : Grammar ω) : Nat :=
  (grammar.startRule?.map Rule.combinations).getD 0

end Grammar

end PhraseGrammar
