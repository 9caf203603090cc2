import PhraseGrammar.Proofs.Binding.Walk
import PhraseGrammar.Proofs.Inlining.Locals

namespace PhraseGrammar.Grammar

variable {ω : Type} (grammar : Grammar ω) (holds : Rule ω → Prop)

-- Something holds for all rules that have been resolved.
def AllResolved (pass : InliningPass ω) : Prop :=
  ∀ entry ∈ pass.resolved, holds entry.2

-- Names are resolved to rules for which it holds, as long as it holds for those
-- that have been resolved before.
def ResolvesKeeping (resolve : String → InliningPass ω → Option (Rule ω) × InliningPass ω) : Prop :=
  ∀ name pass, AllResolved holds pass → AllResolved holds (resolve name pass).2 ∧
    ∀ rule, (resolve name pass).1 = some rule → holds rule

-- It still holds for a rule after the rules for which it holds have been put
-- into it.
def KeptByInlining : Prop :=
  ∀ resolve, ResolvesKeeping holds resolve → ∀ rule pass, AllResolved holds pass → holds rule →
    AllResolved holds (rule.inlined resolve pass).2 ∧ holds (rule.inlined resolve pass).1

variable {holds} (hkept : KeptByInlining holds)
  (hrules : ∀ assignment ∈ grammar.assignments, holds assignment.rule)

include hkept hrules

theorem resolvesKeeping_resolveLocal (depth : Nat) (path : List String) :
    ResolvesKeeping holds (grammar.resolveLocal depth path) := by
  induction depth using Nat.strongRecOn generalizing path with
  | ind depth ih =>
      intro name pass hpass
      rcases grammar.resolveLocal_cases depth path name pass with
        ⟨rule, hfound, hanswer⟩ | ⟨_, _, hanswer⟩ | ⟨rule, less, hrule, rfl, _, hanswer⟩ <;>
        rw [hanswer]
      · refine ⟨hpass, ?_⟩
        rintro _ ⟨⟩
        exact hpass _ (mem_of_lookup _ _ _ hfound)
      · exact ⟨hpass, nofun⟩
      · obtain ⟨hnext, hinlined⟩ := hkept _ (ih less (Nat.lt_succ_self less) (name :: path)) rule
          pass hpass (hrules _ (grammar.mem_of_rule? name rule hrule))
        refine ⟨List.forall_mem_cons.mpr ⟨hinlined, hnext⟩, ?_⟩
        rintro _ ⟨⟩
        exact hinlined

theorem kept_inlineAssignments (assignments : List (Assignment ω))
    (hassignments : ∀ assignment ∈ assignments, holds assignment.rule) (pass : InliningPass ω)
    (hpass : AllResolved holds pass) :
    ∀ assignment ∈ (grammar.inlineAssignments assignments pass).1, holds assignment.rule := by
  induction assignments generalizing pass with
  | nil => exact nofun
  | cons assignment rest ih =>
      obtain ⟨name, rule⟩ := assignment
      obtain ⟨hrule, hrest⟩ := List.forall_mem_cons.mp hassignments
      by_cases hlocal : isLocal name
      · simp only [inlineAssignments, hlocal, if_true]
        exact ih hrest pass hpass
      · obtain ⟨hnext, hinlined⟩ := hkept _
          (grammar.resolvesKeeping_resolveLocal hkept hrules grammar.assignments.length []) rule
          pass hpass hrule
        simp only [inlineAssignments, hlocal, Bool.false_eq_true, if_false]
        exact List.forall_mem_cons.mpr ⟨hinlined, ih hrest _ hnext⟩

-- What holds for all rules of a grammar and is kept when a rule is inlined,
-- holds for the rules that inlining leaves.
theorem kept_inlineLocals : ∀ assignment ∈ grammar.inlineLocals.1.assignments,
    holds assignment.rule :=
  grammar.kept_inlineAssignments hkept hrules grammar.assignments hrules ⟨[], []⟩
    (List.forall_mem_nil _)

end PhraseGrammar.Grammar
