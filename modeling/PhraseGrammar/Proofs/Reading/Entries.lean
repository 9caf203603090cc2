import PhraseGrammar.Proofs.Reading.Bodies

namespace PhraseGrammar.Reading

open Written

variable {ω : Type} [Weight ω] {compile : Compiler}

-- What follows the name of an entry, and what follows its weight.
def signedText (entry : Entry compile) (input : List Char) : List Char :=
  sign entry.equalized ++ (entry.continuation.text ++ (entry.body.text ++ '\n' :: input))

theorem ended_signedText (entry : Entry compile) (input : List Char) :
    Ended (signedText entry input) := by
  rw [signedText]
  cases entry.equalized <;> exact ended_cons _ _ (by decide)

theorem solid_signedText (entry : Entry compile) (input : List Char) :
    Solid false (signedText entry input) := by
  rw [signedText]
  cases entry.equalized <;> exact solid_cons false _ _ (by decide)

theorem weighted_rule (body : Body compile) (equalized : Bool) (weight : Option ω) :
    ({ (body.rule false none : Rule ω) with fixedWeight := weight, equalized := equalized } :
      Rule ω) = body.rule equalized weight := by
  cases body
  rw [Body.rule, Body.rule]
  rfl

-- An assignment is read up to the end of its last line.
theorem reads_readAssignment (entry : Entry compile) (input : List Char) :
    Reads (readAssignment compile) (entry.text ++ input)
      (some entry.assignment : Option (Assignment ω)) ('\n' :: input) := by
  obtain ⟨first, more, he⟩ := List.exists_cons_of_ne_nil entry.name.hne
  have hfirst : isNameCharacter first := entry.name.hcharacters first (he ▸ List.mem_cons_self)
  have htext : entry.text ++ input =
      gapText entry.lead ++ (entry.name.characters ++ (gapText entry.gap ++
        (weightText entry.weight ++ signedText entry input))) := by
    simp only [Entry.text, signedText, List.append_assoc, List.cons_append, List.nil_append]
  have hname : Solid true (entry.name.characters ++ (gapText entry.gap ++
      (weightText entry.weight ++ signedText entry input))) := by
    rw [he]
    exact solid_nameCharacter true first _ hfirst
  have hgap : entry.gap ≠ [] ∨ Ended (weightText entry.weight ++ signedText entry input) := by
    cases hweight : entry.weight with
    | none => exact .inr (ended_signedText entry input)
    | some weight => exact .inl (entry.hgap (by rw [hweight]; rfl))
  have hsigned := solid_signedText entry input
  rw [htext]
  refine reads_bind (reads_skipBlanks true entry.lead _ hname) (reads_bind (reads_remaining _) ?_)
  simp only [he, List.cons_append, List.isEmpty_cons, Bool.false_eq_true, if_false]
  rw [← List.cons_append, ← he]
  refine reads_bind (reads_readName entry.name _ (ended_gapText entry.gap _ hgap)) ?_
  refine reads_bind (reads_skipBlanks false entry.gap _ (solid_weightText _ _ hsigned)) ?_
  refine reads_bind (reads_weight entry.weight _ (ended_signedText entry input)) ?_
  refine reads_bind (reads_skipBlanks false (gapLeft entry.weight) _ hsigned) ?_
  refine reads_bind (reads_readOperator entry.equalized _) ?_
  refine reads_bind (reads_skipToContinuation entry.continuation _ (solid_body entry.body _)) ?_
  refine reads_bind (reads_remaining _) ?_
  refine reads_bind (reads_body entry.body _ _ (by simp) ⟨'\n', input, rfl, .inl rfl⟩) ?_
  refine reads_bind (reads_remaining _) ?_
  rw [weighted_rule]
  exact reads_pure _ _

theorem reads_noAssignment (trail : List (Blank true)) :
    Reads (readAssignment compile) (gapText trail) (none : Option (Assignment ω)) [] := by
  have hblanks := reads_skipBlanks true trail [] (solid_nil true)
  rw [List.append_nil] at hblanks
  exact reads_bind hblanks (reads_bind (reads_remaining _) (reads_pure _ _))

end PhraseGrammar.Reading
