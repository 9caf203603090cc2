import PhraseGrammar.Grammar.Basic

namespace PhraseGrammar

variable {ω : Type} [Weight ω]

section Parts

variable {σ : Type} (follow : String → σ → Option (Nat × Tally ω) × σ)

mutual

-- Binds a rule. References are followed from left to right with a state; a
-- reference that is followed to a rule is linked to it, every other is
-- unlinked.
def Rule.bound : Rule ω → σ → Rule ω × σ
  | ⟨choices, _, equalized, substitutions, fixedWeight, mark⟩, state =>
      let (choices, state) := boundChoices choices state
      (⟨choices, runningTotals (choices.map Choice.weight), equalized, substitutions,
        fixedWeight, mark⟩, state)

def boundChoices : List (Choice ω) → σ → List (Choice ω) × σ
  | [], state => ([], state)
  | ⟨parts, _, fixedWeight, _⟩ :: rest, state =>
      let (parts, tally, state) := boundParts parts Tally.one state
      let (rest, state) := boundChoices rest state
      (⟨parts, tally.weight, fixedWeight, tally.combinations⟩ :: rest, state)

-- Along with the parts this returns the product of what the parts so far and
-- these contribute.
def boundParts : List (Part ω) → Tally ω → σ → List (Part ω) × Tally ω × σ
  | [], tally, state => ([], tally, state)
  | .literal text :: rest, tally, state =>
      let (rest, tally, state) := boundParts rest tally state
      (.literal text :: rest, tally, state)
  | .inline rule :: rest, tally, state =>
      let (rule, state) := Rule.bound rule state
      let (rest, tally, state) := boundParts rest (tally.times rule.tally) state
      (.inline rule :: rest, tally, state)
  | .reference name _ :: rest, tally, state =>
      match follow name state with
      | (some (index, factor), state) =>
          let (rest, tally, state) := boundParts rest (tally.times factor) state
          (.reference name (some index) :: rest, tally, state)
      | (none, state) =>
          let (rest, tally, state) := boundParts rest tally state
          (.reference name none :: rest, tally, state)

end

end Parts

-- The assignments while they are being bound, and what has been found wrong,
-- the latest report last.
structure BindingPass (ω : Type) where
  assignments : List (Assignment ω)
  reports : List Diagnostic

namespace BindingPass

omit [Weight ω]

def ruleAt? (pass : BindingPass ω) (index : Nat) : Option (Rule ω) :=
  pass.assignments[index]?.map Assignment.rule

def put (pass : BindingPass ω) (index : Nat) (rule : Rule ω) : BindingPass ω :=
  { pass with
    assignments := pass.assignments.modify index fun assignment =>
      { assignment with rule := rule } }

def report (pass : BindingPass ω) (diagnostic : Diagnostic) : BindingPass ω :=
  { pass with reports := pass.reports ++ [diagnostic] }

end BindingPass

-- What is left of a rule in its place while its choices are being bound.
def Rule.opened (rule : Rule ω) : Rule ω :=
  { rule with choices := [], table := [], equalized := false, mark := .inProgress }

namespace Grammar

-- Follows a reference to a rule and visits it. A name that is not assigned
-- leads nowhere, and a rule that cannot be visited closes a cycle.
def follow (grammar : Grammar ω) (visit : Nat → BindingPass ω → Bool × BindingPass ω)
    (name : String) (pass : BindingPass ω) : Option (Nat × Tally ω) × BindingPass ω :=
  match grammar.indexOf? name with
  | none => (none, pass)
  | some index =>
      match visit index pass with
      | (true, pass) => ((pass.ruleAt? index).map fun rule => (index, rule.tally), pass)
      | (false, pass) => (none, pass.report (.recursiveExpansion name))

-- Binds the rule at a position, unless the pass has bound it before. A rule
-- that is being bound is not visited again. Each rule inside another visit is
-- a different one, so `depth` need not exceed the number of assignments.
def visit (grammar : Grammar ω) : (depth : Nat) → Nat → BindingPass ω → Bool × BindingPass ω
  | depth, index, pass =>
      match pass.ruleAt? index with
      | none => (false, pass)
      | some rule =>
          if rule.mark = .inProgress then (false, pass)
          else if rule.mark = .bound grammar.passes then (true, pass)
          else
            match depth with
            | 0 => (false, pass)
            | depth + 1 =>
                let (bound, pass) :=
                  rule.bound (grammar.follow (visit grammar depth)) (pass.put index rule.opened)
                (true, pass.put index (bound.marked (.bound grammar.passes)))

-- Passes are numbered up to this one.
def lastPass : Nat := UInt32.size - 1

-- The grammar in its next pass. After the last one the marks are taken off,
-- and the numbers start again.
def nextPass (grammar : Grammar ω) : Grammar ω :=
  if grammar.passes = lastPass then
    { grammar with
      assignments := grammar.assignments.map fun assignment =>
        { assignment with rule := assignment.rule.marked .unbound }
      passes := 1 }
  else
    { grammar with passes := grammar.passes + 1 }

-- Binds the grammar to the name `start`, and succeeds if nothing is reported.
-- A grammar that cannot be bound keeps its content.
def bind (grammar : Grammar ω) (start : String) : Grammar ω × List Diagnostic :=
  match grammar.indexOf? start with
  | none => ({ grammar with start := none }, [.missingStart start])
  | some index =>
      let grammar := grammar.nextPass
      let pass := (grammar.visit grammar.assignments.length index ⟨grammar.assignments, []⟩).2
      (⟨pass.assignments, if pass.reports.isEmpty then some index else none, grammar.passes⟩,
        pass.reports)

end Grammar

end PhraseGrammar
