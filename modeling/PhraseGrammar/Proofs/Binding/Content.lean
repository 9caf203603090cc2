import PhraseGrammar.Proofs.Binding.Stack
import PhraseGrammar.Proofs.Rule.Content

namespace PhraseGrammar.Grammar

variable {ω : Type} [Weight ω]

theorem content_closed (grammar : Grammar ω) (rule : Rule ω)
    (given : List (Option (Nat × Tally ω))) :
    (grammar.closed rule given).content = rule.content := by
  rw [closed, Rule.content_marked, Rule.answered, Rule.content_bound]

-- Every rule that a walk finishes is made of the rule that the name has.
theorem Walk.exists_closed {grammar : Grammar ω} {path names : List String} {trail last : Trail ω}
    {given : List (Option (Nat × Tally ω))} (h : grammar.Walk path names trail given last)
    (htrail : ∀ entry ∈ trail.finished, ∃ rule given, grammar.rule? entry.1 = some rule ∧
      entry.2 = grammar.closed rule given) :
    ∀ entry ∈ last.finished, ∃ rule given, grammar.rule? entry.1 = some rule ∧
      entry.2 = grammar.closed rule given := by
  induction h with
  | nil => exact htrail
  | unassigned _ _ _ _ _ _ _ _ ih => exact ih htrail
  | finished _ _ _ _ _ _ _ _ _ _ _ ih => exact ih htrail
  | cycle _ _ _ _ _ _ _ _ _ _ ih => exact ih htrail
  | visit _ _ _ _ _ _ inner _ _ rule _ hrule _ _ _ _ ihinner ihrest =>
      exact ihrest (List.forall_mem_cons.mpr ⟨⟨rule, inner, hrule, rfl⟩, ihinner htrail⟩)

-- Binding keeps what every rule says, whether it succeeds or not.
theorem content_bind (grammar : Grammar ω) (h : grammar.Settled) (start name : String) :
    ((grammar.bind start).1.rule? name).map Rule.content =
      (grammar.rule? name).map Rule.content := by
  cases hstart : grammar.indexOf? start with
  | none => simp only [rule?_eq_find?, bind, hstart]
  | some index =>
      obtain ⟨_, last, hwalk, hbind⟩ := grammar.bind_walk h start index hstart
      have hclosed := hwalk.exists_closed (by simp)
      have hadopt : (grammar.bind start).1.assignments =
          grammar.nextPass.adopt last.finished := by rw [hbind]
      rw [grammar.nextPass.rule?_of_adopt last.finished _ hadopt, rule?_nextPass]
      cases hrule : grammar.rule? name with
      | none => rfl
      | some rule =>
          simp only [Option.map_some, Option.some.injEq]
          cases hfinished : last.finished.lookup name with
          | none => exact rule.content_marked _
          | some bound =>
              obtain ⟨own, given, hown, hmade⟩ :=
                hclosed _ (mem_of_lookup _ _ _ hfinished)
              rw [rule?_nextPass, hrule, Option.map_some, Option.some.injEq] at hown
              rw [Option.getD_some, show bound = _ from hmade, content_closed, ← hown,
                Rule.content_marked]

end PhraseGrammar.Grammar
