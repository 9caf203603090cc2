import PhraseGrammar.Proofs.Reading.Reads
import PhraseGrammar.Proofs.Reading.Written

namespace PhraseGrammar.Reading

open Written

variable {β : Type}

theorem isSpace_eq_false (character : Char) (hspace : character ≠ ' ') (htab : character ≠ '\t') :
    isSpace character = false := by
  simp [isSpace, hspace, htab]

-- A text that does not start with a blank, nor with a brace.
def Solid (newlines : Bool) (rest : List Char) : Prop :=
  ∀ character ∈ rest.head?,
    isSpace character = false ∧ character ≠ '{' ∧ (newlines → character ≠ '\n')

theorem solid_nil (newlines : Bool) : Solid newlines [] := nofun

theorem solid_cons (newlines : Bool) (character : Char) (rest : List Char)
    (h : isSpace character = false ∧ character ≠ '{' ∧ character ≠ '\n') :
    Solid newlines (character :: rest) := by
  rintro _ ⟨⟩
  exact ⟨h.1, h.2.1, fun _ => h.2.2⟩

theorem blankExtent_solid (newlines : Bool) (rest : List Char) (h : Solid newlines rest) :
    blankExtent newlines false rest = (0, true) := by
  cases rest with
  | nil => rfl
  | cons character rest =>
      obtain ⟨hspace, hbrace, hnewline⟩ := h character rfl
      rw [blankExtent]
      · cases newlines <;> simp_all
      · rintro _ rfl
        exact absurd rfl hbrace

-- A comment ends at its first closing brace.
theorem blankExtent_comment (newlines : Bool) (body rest : List Char) (hbody : '}' ∉ body) :
    blankExtent newlines true (body ++ '}' :: rest) =
      (body.length + 1 + (blankExtent newlines false rest).1,
        (blankExtent newlines false rest).2) := by
  induction body with
  | nil => simp [blankExtent, Nat.add_comm]
  | cons character body ih =>
      have hopen : (character != '}') = true :=
        bne_iff_ne.mpr (List.ne_of_not_mem_cons hbody).symm
      simp only [List.cons_append, blankExtent, hopen, ih (List.not_mem_of_not_mem_cons hbody),
        List.length_cons, Prod.mk.injEq, and_true]
      omega

theorem blankExtent_blank (newlines : Bool) (blank : Blank newlines) (rest : List Char) :
    blankExtent newlines false (blank.text ++ rest) =
      (blank.text.length + (blankExtent newlines false rest).1,
        (blankExtent newlines false rest).2) := by
  cases blank with
  | space => simp [Blank.text, blankExtent, isSpace, Nat.add_comm]
  | tab => simp [Blank.text, blankExtent, isSpace, Nat.add_comm]
  | comment _ body hbody =>
      simp only [Blank.text, List.cons_append, List.append_assoc, List.nil_append, blankExtent,
        blankExtent_comment newlines body rest hbody, List.length_cons, List.length_append,
        List.length_nil, Prod.mk.injEq, and_true]
      omega
  | newline => simp [Blank.text, blankExtent, isSpace, Nat.add_comm]

theorem blankExtent_gapText (newlines : Bool) (gap : List (Blank newlines)) (rest : List Char)
    (hrest : Solid newlines rest) :
    blankExtent newlines false (gapText gap ++ rest) = ((gapText gap).length, true) := by
  induction gap with
  | nil => exact blankExtent_solid newlines rest hrest
  | cons blank gap ih =>
      rw [gapText, List.flatMap_cons, ← gapText, List.append_assoc, blankExtent_blank, ih,
        List.length_append]

theorem reads_skipBlanks (newlines : Bool) (gap : List (Blank newlines)) (input : List Char)
    (hinput : Solid newlines input) :
    Reads (skipBlanks newlines) (gapText gap ++ input) () input := by
  refine reads_bind (reads_remaining _) ?_
  simp only [blankExtent_gapText newlines gap input hinput]
  exact reads_bind (reads_skip_append (gapText gap) input) (reads_pure () input)

theorem reads_skipBlanks_nil (newlines : Bool) (input : List Char)
    (hinput : Solid newlines input) : Reads (skipBlanks newlines) input () input :=
  reads_skipBlanks newlines [] input hinput

theorem reads_skipToContinuation (lead : Continuation) (input : List Char)
    (hinput : Solid true input) : Reads skipToContinuation (lead.text ++ input) () input := by
  have hsolid : Solid false input := fun character hc =>
    ⟨(hinput character hc).1, (hinput character hc).2.1, nofun⟩
  obtain ⟨before, after⟩ := lead
  rw [Continuation.text, List.append_assoc]
  cases after with
  | none =>
      have hhead : (input.head? == some '\n') = false := by
        cases input with
        | nil => rfl
        | cons character input =>
            have hne := (hinput character rfl).2.2 rfl
            simpa using hne
      refine reads_bind (reads_skipBlanks false before _ hsolid) ?_
      refine reads_bind (reads_remaining _) ?_
      simp only [lineText, List.nil_append, hhead]
      exact reads_pure () input
  | some gap =>
      have hline : Solid false ('\n' :: (gapText gap ++ input)) := by
        rintro _ ⟨⟩
        decide
      refine reads_bind (reads_skipBlanks false before _ hline) ?_
      refine reads_bind (reads_remaining _) ?_
      simp only [lineText, List.cons_append, List.head?_cons, beq_self_eq_true, if_true]
      exact reads_bind (reads_skip 1 _) (reads_skipBlanks false gap input hsolid)

end PhraseGrammar.Reading
