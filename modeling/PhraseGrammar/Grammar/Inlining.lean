import PhraseGrammar.Grammar.Basic

namespace PhraseGrammar

variable {ω : Type}

section Parts

variable {σ : Type} (resolve : String → σ → Option (Rule ω) × σ)

mutual

-- Puts the rule that a local name resolves to in the place of each reference
-- to it, from left to right with a state. A reference to a local name that
-- does not resolve stays.
def Rule.inlined : Rule ω → σ → Rule ω × σ
  | ⟨choices, table, equalized, substitutions, fixedWeight, mark⟩, state =>
      let (choices, state) := inlinedChoices choices state
      (⟨choices, table, equalized, substitutions, fixedWeight, mark⟩, state)

def inlinedChoices : List (Choice ω) → σ → List (Choice ω) × σ
  | [], state => ([], state)
  | ⟨parts, product, fixedWeight, combinations⟩ :: rest, state =>
      let (parts, state) := inlinedParts parts state
      let (rest, state) := inlinedChoices rest state
      (⟨parts, product, fixedWeight, combinations⟩ :: rest, state)

def inlinedParts : List (Part ω) → σ → List (Part ω) × σ
  | [], state => ([], state)
  | .literal text :: rest, state =>
      let (rest, state) := inlinedParts rest state
      (.literal text :: rest, state)
  | .inline rule :: rest, state =>
      let (rule, state) := Rule.inlined rule state
      let (rest, state) := inlinedParts rest state
      (.inline rule :: rest, state)
  | .reference name link :: rest, state =>
      if isLocal name then
        match resolve name state with
        | (some rule, state) =>
            let (rest, state) := inlinedParts rest state
            (.inline rule :: rest, state)
        | (none, state) =>
            let (rest, state) := inlinedParts rest state
            (.reference name link :: rest, state)
      else
        let (rest, state) := inlinedParts rest state
        (.reference name link :: rest, state)

end

end Parts

-- The local rules that have been inlined themselves, by name, and what has
-- been found wrong, the latest report last.
structure InliningPass (ω : Type) where
  resolved : List (String × Rule ω)
  reports : List Diagnostic

namespace Grammar

-- Resolves a local name to its rule, in which local names have been resolved.
-- A name that is not assigned and one that is being resolved already, one of
-- those in `path`, are reported. Each name on the path is a different one, so
-- `depth` need not exceed the number of assignments.
def resolveLocal (grammar : Grammar ω) : (depth : Nat) → (path : List String) → String →
    InliningPass ω → Option (Rule ω) × InliningPass ω
  | depth, path, name, pass =>
      match pass.resolved.lookup name with
      | some rule => (some rule, pass)
      | none =>
          match grammar.rule? name with
          | none => (none, { pass with reports := pass.reports ++ [.missingLocal name] })
          | some rule =>
              match depth with
              | 0 => (none, { pass with reports := pass.reports ++ [.recursiveExpansion name] })
              | depth + 1 =>
                  if path.contains name then
                    (none, { pass with reports := pass.reports ++ [.recursiveExpansion name] })
                  else
                    let (rule, pass) :=
                      rule.inlined (resolveLocal grammar depth (name :: path)) pass
                    (some rule, { pass with resolved := (name, rule) :: pass.resolved })

def inlineAssignments (grammar : Grammar ω) :
    List (Assignment ω) → InliningPass ω → List (Assignment ω) × InliningPass ω
  | [], pass => ([], pass)
  | ⟨name, rule⟩ :: rest, pass =>
      if isLocal name then
        inlineAssignments grammar rest pass
      else
        let (rule, pass) := rule.inlined (grammar.resolveLocal grammar.assignments.length []) pass
        let (rest, pass) := inlineAssignments grammar rest pass
        (⟨name, rule⟩ :: rest, pass)

-- Replaces every reference to a local name by the rule of that name, then
-- drops the assignments of local names and forgets the binding.
def inlineLocals (grammar : Grammar ω) : Grammar ω × List Diagnostic :=
  let (assignments, pass) := grammar.inlineAssignments grammar.assignments ⟨[], []⟩
  ({ grammar with assignments := assignments, start := none }, pass.reports)

end Grammar

end PhraseGrammar
