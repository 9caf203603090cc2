import PhraseGrammar.Proofs.Grammar.Names
import PhraseGrammar.Proofs.Rule.WellFormed

namespace PhraseGrammar.Grammar

variable {ω : Type} [Weight ω]

-- A grammar as it is read: different names, well formed rules, and no binding.
structure WellFormed (mayName : String → Prop) (grammar : Grammar ω) : Prop where
  nodup : grammar.names.Nodup
  isName : ∀ name ∈ grammar.names, IsName name
  rules : ∀ assignment ∈ grammar.assignments, assignment.rule.WellFormed mayName
  start : grammar.start = none
  passes : grammar.passes = 0

theorem WellFormed.mono {mayName allowed : String → Prop} (h : ∀ name, mayName name → allowed name)
    (grammar : Grammar ω) (hgrammar : grammar.WellFormed mayName) : grammar.WellFormed allowed :=
  { hgrammar with
    rules := fun assignment hassignment =>
      Rule.WellFormed.mono h _ (hgrammar.rules assignment hassignment) }

theorem WellFormed.rule? {mayName : String → Prop} (grammar : Grammar ω)
    (h : grammar.WellFormed mayName) (name : String) (rule : Rule ω)
    (hrule : grammar.rule? name = some rule) : rule.WellFormed mayName :=
  h.rules ⟨name, rule⟩ ((grammar.rule?_eq_some_iff h.nodup name rule).mp hrule)

-- The rules of a grammar as it is read have nothing to unlink.
theorem WellFormed.map_unlinked {mayName : String → Prop} (grammar : Grammar ω)
    (h : grammar.WellFormed mayName) (name : String) :
    (grammar.rule? name).map Rule.unlinked = grammar.rule? name := by
  cases hrule : grammar.rule? name with
  | none => rfl
  | some rule =>
      have hformed := h.rule? grammar name rule hrule
      rw [Option.map_some, rule.unlinked_of_wellFormed hformed]

end PhraseGrammar.Grammar
