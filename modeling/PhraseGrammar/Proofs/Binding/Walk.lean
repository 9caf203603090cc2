import PhraseGrammar.Proofs.Binding.BoundRule
import PhraseGrammar.Proofs.Grammar.Names

namespace PhraseGrammar

variable {ω : Type} [Weight ω]

-- How far a walk along references has come: the rules that it has bound, the
-- latest first, and what it has found wrong.
structure Trail (ω : Type) where
  finished : List (String × Rule ω)
  reports : List Diagnostic

namespace Trail

omit [Weight ω]

def empty : Trail ω := ⟨[], []⟩

def names (trail : Trail ω) : List String := trail.finished.map Prod.fst

def finish (trail : Trail ω) (name : String) (rule : Rule ω) : Trail ω :=
  { trail with finished := (name, rule) :: trail.finished }

def report (trail : Trail ω) (diagnostic : Diagnostic) : Trail ω :=
  { trail with reports := trail.reports ++ [diagnostic] }

@[simp] theorem finished_empty : (empty : Trail ω).finished = [] := rfl

@[simp] theorem reports_empty : (empty : Trail ω).reports = [] := rfl

@[simp] theorem names_finish (trail : Trail ω) (name : String) (rule : Rule ω) :
    (trail.finish name rule).names = name :: trail.names := rfl

@[simp] theorem reports_report (trail : Trail ω) (diagnostic : Diagnostic) :
    (trail.report diagnostic).reports = trail.reports ++ [diagnostic] := rfl

theorem lookup_finish (trail : Trail ω) (name other : String) (rule : Rule ω) :
    (trail.finish name rule).finished.lookup other =
      if other = name then some rule else trail.finished.lookup other := by
  by_cases h : other = name
  · simp [finish, h]
  · simp only [finish, List.lookup_cons, beq_eq_false_iff_ne.mpr h, if_neg h]

end Trail

namespace Grammar

-- A rule of the grammar that has been bound by answers to its references.
def closed (grammar : Grammar ω) (rule : Rule ω) (given : List (Option (Nat × Tally ω))) :
    Rule ω :=
  (rule.answered given).marked (.bound grammar.passes)

-- Everything that a binding pass can do: it walks along a list of references
-- below a path of rules that are being bound, from one trail to another, and
-- gives an answer to each. References of a rule that is visited are walked
-- along first, one step deeper.
inductive Walk (grammar : Grammar ω) :
    List String → List String → Trail ω → List (Option (Nat × Tally ω)) → Trail ω → Prop
  | nil (path : List String) (trail : Trail ω) : Walk grammar path [] trail [] trail
  | unassigned (path : List String) (name : String) (rest : List String) (trail last : Trail ω)
      (given : List (Option (Nat × Tally ω))) (hname : grammar.indexOf? name = none)
      (hrest : Walk grammar path rest trail given last) :
      Walk grammar path (name :: rest) trail (none :: given) last
  | finished (path : List String) (name : String) (rest : List String) (trail last : Trail ω)
      (given : List (Option (Nat × Tally ω))) (index : Nat) (rule : Rule ω)
      (hname : grammar.indexOf? name = some index)
      (hfinished : trail.finished.lookup name = some rule)
      (hrest : Walk grammar path rest trail given last) :
      Walk grammar path (name :: rest) trail (some (index, rule.tally) :: given) last
  | cycle (path : List String) (name : String) (rest : List String) (trail last : Trail ω)
      (given : List (Option (Nat × Tally ω))) (index : Nat)
      (hname : grammar.indexOf? name = some index) (hpath : name ∈ path)
      (hrest : Walk grammar path rest (trail.report (.recursiveExpansion name)) given last) :
      Walk grammar path (name :: rest) trail (none :: given) last
  | visit (path : List String) (name : String) (rest : List String) (trail middle last : Trail ω)
      (inner given : List (Option (Nat × Tally ω))) (index : Nat) (rule : Rule ω)
      (hname : grammar.indexOf? name = some index) (hrule : grammar.rule? name = some rule)
      (hpath : name ∉ path) (hfinished : trail.finished.lookup name = none)
      (hinner : Walk grammar (name :: path) rule.mentions trail inner middle)
      (hrest : Walk grammar path rest (middle.finish name (grammar.closed rule inner)) given last) :
      Walk grammar path (name :: rest) trail
        (some (index, (grammar.closed rule inner).tally) :: given) last

end Grammar

end PhraseGrammar
