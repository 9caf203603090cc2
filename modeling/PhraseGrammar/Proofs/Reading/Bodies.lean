import PhraseGrammar.Proofs.Reading.Texts

namespace PhraseGrammar.Reading

open Written

variable {ω : Type} [Weight ω] {compile : Compiler}

theorem reads_noMoreChoices (inner : Reader (Rule ω)) (steps : Nat) (choices : List (Choice ω))
    (input : List Char) (hinput : Barred input) :
    Reads (readMoreChoices inner steps choices) input choices input := by
  cases steps with
  | zero => exact reads_pure _ _
  | succ steps =>
      obtain ⟨character, more, rfl, hc⟩ := hinput
      refine reads_bind (reads_remaining _) ?_
      rcases hc with rfl | rfl | rfl <;> exact reads_pure _ _

theorem length_choices_le : ∀ quotations : Quotations compile,
    (quotations.choices : List (Choice ω)).length ≤ quotations.text.length
  | .last (.mk pieces gap weight) => by
      simp only [Quotations.choices, Quotations.text, Quotation.text, List.length_cons,
        List.length_nil]
      omega
  | .more quotation lead rest => by
      have := length_choices_le rest
      simp only [Quotations.choices, Quotations.text, List.length_cons, List.length_append]
      omega

theorem solid_bar (rest : List Char) : Solid false ('|' :: rest) :=
  solid_cons false _ _ (by decide)

theorem length_le_escaped (characters : List Char) :
    characters.length ≤ (characters.flatMap escaped).length := by
  have hsome (character : Char) : 0 < (escaped character).length := by
    unfold escaped
    split
    · simp
    · split <;> simp
  have hlength := length_le_flatMap escaped characters hsome []
  rwa [List.append_nil] at hlength

mutual

-- Pieces are read up to the closing quote. The depth is for the rules in them.
theorem reads_pieces {free : Bool} : ∀ (pieces : Pieces compile free) (depth steps : Nat)
    (draft : Draft ω) (input : List Char), pieces.text.length ≤ depth →
    pieces.text.length ≤ steps →
    Reads (readQuotedBody (readInline compile depth) '\"' steps draft)
      (pieces.text ++ '\"' :: input) (draftAfter pieces draft) ('\"' :: input)
  | .nil _, depth, steps, draft, input, _, _ => by
      cases steps with
      | zero => exact reads_pure _ _
      | succ steps => exact reads_bind (reads_remaining _) (reads_pure _ _)
  | .literal literal rest, depth, steps, draft, input, hdepth, hsteps => by
      have hlength := length_le_escaped literal.characters
      rw [Pieces.text, List.length_append] at hdepth hsteps
      rw [Literal.text] at hdepth hsteps
      obtain ⟨less, rfl⟩ :=
        Nat.exists_eq_add_of_le' (show literal.characters.length ≤ steps by omega)
      rw [Pieces.text, List.append_assoc, Literal.text]
      exact reads_literal _ literal.characters less draft _ _ _
        (reads_pieces rest depth less _ input (by omega) (by omega))
  | .reference _ name rest, depth, steps, draft, input, hdepth, hsteps => by
      simp only [Pieces.text, List.length_cons, List.length_append] at hdepth hsteps
      obtain ⟨less, rfl⟩ := Nat.exists_eq_add_of_le' (show 1 ≤ steps by omega)
      simp only [Pieces.text, List.cons_append, List.append_assoc]
      exact reads_quotedBraces _ _ (by decide) less draft _ _ _ _ _
        (reads_referenceBraces _ draft name _)
        (reads_pieces rest depth less _ input (by omega) (by omega))
  | .inline _ equalized lead body line rest, depth, steps, draft, input, hdepth, hsteps => by
      simp only [Pieces.text, List.length_cons, List.length_append] at hdepth hsteps
      obtain ⟨less, rfl⟩ := Nat.exists_eq_add_of_le' (show 1 ≤ steps by omega)
      simp only [Pieces.text, List.cons_append, List.append_assoc]
      have hbody := reads_body body depth (lineText line ++ '}' :: (rest.text ++ '\"' :: input))
        (by omega) (closed_lineText line _)
      exact reads_quotedBraces _ _ (by decide) less draft _ _ _ _ _
        (reads_inlineBraces depth draft equalized lead body line _ hbody)
        (reads_pieces rest depth less _ input (by omega) (by omega))

theorem reads_quotation : ∀ (quotation : Quotation compile) (depth : Nat) (input : List Char),
    quotation.text.length ≤ depth + 1 → Solid false input → Ended input →
    ∃ gap : List (Blank false),
      Reads (readChoice (readInline compile depth)) (quotation.text ++ input)
        (quotation.choice : Choice ω) (gapText gap ++ input)
  | .mk pieces gap weight, depth, input, hdepth, hsolid, hended => by
      simp only [Quotation.text, List.length_cons, List.length_append] at hdepth
      refine ⟨gapLeft weight, reads_quoted _ pieces gap weight input hsolid hended
        fun steps hsteps => ?_⟩
      exact reads_pieces pieces depth steps Draft.empty _ (by omega) hsteps

theorem reads_moreChoices : ∀ (quotations : Quotations compile) (depth steps : Nat)
    (lead : Continuation) (choices : List (Choice ω)) (input : List Char),
    quotations.text.length ≤ depth + 1 →
    (quotations.choices : List (Choice ω)).length ≤ steps → Barred input →
    Reads (readMoreChoices (readInline compile depth) steps choices)
      ('|' :: (lead.text ++ (quotations.text ++ input))) (choices ++ quotations.choices) input
  | .last quotation, depth, steps, lead, choices, input, hdepth, hsteps, hinput => by
      obtain ⟨less, rfl⟩ := Nat.exists_eq_add_of_le' (show 1 ≤ steps from hsteps)
      obtain ⟨gap, hquotation⟩ :=
        reads_quotation quotation depth input hdepth (hinput.solid input) (hinput.ended input)
      refine reads_bind (reads_remaining _) (reads_bind (reads_skip 1 _) ?_)
      refine reads_bind (reads_skipToContinuation lead _ (solid_quotation quotation input)) ?_
      refine reads_bind hquotation ?_
      refine reads_bind (reads_skipBlanks false gap input (hinput.solid input)) ?_
      exact reads_noMoreChoices _ less _ input hinput
  | .more quotation next rest, depth, steps, lead, choices, input, hdepth, hsteps, hinput => by
      simp only [Quotations.text, Quotations.choices, List.length_append, List.length_cons]
        at hdepth hsteps
      obtain ⟨less, rfl⟩ := Nat.exists_eq_add_of_le' (show 1 ≤ steps by omega)
      have hbar := solid_bar (next.text ++ (rest.text ++ input))
      obtain ⟨gap, hquotation⟩ :=
        reads_quotation quotation depth _ (by omega) hbar (ended_cons _ _ (by decide))
      have hrest := reads_moreChoices rest depth less next (choices ++ [quotation.choice]) input
        (by omega) (by omega) hinput
      simp only [Quotations.text, List.append_assoc, List.cons_append]
      refine reads_bind (reads_remaining _) (reads_bind (reads_skip 1 _) ?_)
      refine reads_bind (reads_skipToContinuation lead _ (solid_quotation quotation _)) ?_
      refine reads_bind hquotation ?_
      refine reads_bind (reads_skipBlanks false gap _ hbar) ?_
      rw [List.append_assoc] at hrest
      exact hrest

theorem reads_choices : ∀ (quotations : Quotations compile) (depth : Nat) (input : List Char),
    quotations.text.length ≤ depth + 1 → Barred input →
    Reads (readChoices (readInline compile depth)) (quotations.text ++ input)
      (quotations.choices : List (Choice ω)) input
  | .last quotation, depth, input, hdepth, hinput => by
      obtain ⟨gap, hquotation⟩ :=
        reads_quotation quotation depth input hdepth (hinput.solid input) (hinput.ended input)
      refine reads_bind hquotation ?_
      refine reads_bind (reads_skipBlanks false gap input (hinput.solid input)) ?_
      exact reads_bind (reads_remaining _) (reads_noMoreChoices _ _ _ input hinput)
  | .more quotation next rest, depth, input, hdepth, hinput => by
      simp only [Quotations.text, List.length_append, List.length_cons] at hdepth
      have hbar := solid_bar (next.text ++ (rest.text ++ input))
      obtain ⟨gap, hquotation⟩ :=
        reads_quotation quotation depth _ (by omega) hbar (ended_cons _ _ (by decide))
      have hcount := length_choices_le rest (ω := ω)
      simp only [Quotations.text, List.append_assoc, List.cons_append]
      refine reads_bind hquotation (reads_bind (reads_skipBlanks false gap _ hbar) ?_)
      refine reads_bind (reads_remaining _) ?_
      exact reads_moreChoices rest depth _ next [quotation.choice] input (by omega)
        (by simp only [List.length_cons, List.length_append]; omega) hinput

theorem reads_body : ∀ (body : Body compile) (depth : Nat) (input : List Char),
    body.text.length ≤ depth → Closed input →
    Reads (readRule compile depth) (body.text ++ input) (body.rule false none : Rule ω) input
  | .mk quotations directives, depth, input, hdepth, hinput => by
      have hbarred := barred_directives directives input hinput
      obtain ⟨rest, htext⟩ := exists_quotationsText quotations
      have hpositive : 1 ≤ quotations.text.length := by simp [htext]
      simp only [Body.text, List.length_append] at hdepth
      obtain ⟨less, rfl⟩ := Nat.exists_eq_add_of_le' (show 1 ≤ depth by omega)
      rw [readRule_succ, Body.text, List.append_assoc]
      refine reads_bind (reads_choices quotations less _ (by omega) hbarred) ?_
      exact reads_bind (reads_readDirectives directives input hinput) (reads_pure _ _)

end

end PhraseGrammar.Reading
