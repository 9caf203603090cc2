import PhraseGrammar.Proofs.Reading.Lexemes

namespace PhraseGrammar.Reading

open Written

-- A text that ends a rule: a newline or a closing brace comes first.
def Closed (rest : List Char) : Prop :=
  ∃ character more, rest = character :: more ∧ (character = '\n' ∨ character = '}')

-- A text that ends the quotations of a rule: directives may come before that.
def Barred (rest : List Char) : Prop :=
  ∃ character more, rest = character :: more ∧
    (character = '~' ∨ character = '\n' ∨ character = '}')

theorem Barred.solid (rest : List Char) (h : Barred rest) : Solid false rest := by
  obtain ⟨character, more, rfl, hc⟩ := h
  rintro _ ⟨⟩
  rcases hc with rfl | rfl | rfl <;> decide

theorem Barred.ended (rest : List Char) (h : Barred rest) : Ended rest := by
  obtain ⟨character, more, rfl, hc⟩ := h
  rcases hc with rfl | rfl | rfl <;> exact ended_cons _ _ (by decide)

variable {compile : Compiler}

theorem barred_directives (directives : List (Directive compile)) (input : List Char)
    (hinput : Closed input) : Barred (directivesText directives ++ input) := by
  cases directives with
  | nil =>
      obtain ⟨character, more, rfl, hc⟩ := hinput
      exact ⟨character, more, rfl, .inr hc⟩
  | cons directive rest => exact ⟨'~', _, rfl, .inl rfl⟩

theorem solid_separator (newlines : Bool) (separator : Char) (rest : List Char)
    (h : 32 < separator.toNat ∧ separator.toNat < 127 ∧ separator ≠ '{') :
    Solid newlines (separator :: rest) := by
  refine solid_cons newlines separator rest ⟨isSpace_eq_false _ ?_ ?_, h.2.2, ?_⟩ <;>
    rintro rfl <;> exact absurd h.1 (by decide)

theorem reads_readSeparator (separator : Char) (input : List Char)
    (h : 32 < separator.toNat ∧ separator.toNat < 127 ∧ separator ≠ '{') :
    Reads readSeparator (separator :: input) separator input := by
  refine reads_bind (reads_remaining _) ?_
  obtain ⟨hlow, hhigh, hbrace⟩ := h
  have hwide : ¬ separator.toNat ≥ 128 := by omega
  have hcontrol : ¬ (separator.toNat < 32 || separator.toNat = 127) = true := by
    simp
    omega
  simp only [hbrace, hwide, hcontrol, if_false]
  exact reads_bind (reads_skip 1 _) (reads_pure _ _)

theorem reads_readBounded (separator : Char) (mayBeEmpty : Bool) (text input : List Char)
    (htext : separator ∉ text) (hempty : text ≠ [] ∨ mayBeEmpty) :
    Reads (readBounded separator mayBeEmpty) (text ++ separator :: input) (String.ofList text)
      input := by
  have hrun : ∀ character ∈ text, (character != separator) = true := fun character hc =>
    bne_iff_ne.mpr fun he => htext (he ▸ hc)
  refine reads_bind (reads_readWhile _ text _ hrun (by simp)) ?_
  have hgiven : (text.isEmpty && !mayBeEmpty) = false := by
    cases text <;> cases mayBeEmpty <;> simp_all
  simp only [hgiven]
  refine reads_bind (reads_remaining _) ?_
  exact reads_bind (reads_skip 1 _) (reads_pure _ _)

theorem reads_readGlobalFlag (global : Bool) (input : List Char) (hinput : Ended input) :
    Reads readGlobalFlag ((if global then ['g'] else []) ++ input) global input := by
  refine reads_bind (reads_remaining _) ?_
  cases global with
  | true => exact reads_bind (reads_skip 1 _) (reads_pure _ _)
  | false =>
      have hhead : (input.head? == some 'g') = false := by
        cases input with
        | nil => rfl
        | cons character input =>
            have hne : character ≠ 'g' := by
              rintro rfl
              exact absurd (hinput 'g' rfl) (by decide)
            simpa using hne
      simp only [Bool.false_eq_true, ↓reduceIte, List.nil_append, hhead]
      exact reads_pure _ _

theorem reads_readDirective (directive : Directive compile) (input : List Char)
    (hinput : Ended input) :
    Reads (readDirective compile)
      (directive.separator :: (directive.pattern ++ directive.separator :: (directive.replacement ++
        directive.separator :: ((if directive.global then ['g'] else []) ++
          (gapText directive.gap ++ input)))))
      directive.transform (gapText directive.gap ++ input) := by
  obtain ⟨hne, hpattern⟩ := directive.hpattern
  refine reads_bind (reads_readSeparator _ _ directive.hseparator) ?_
  refine reads_bind (reads_readBounded _ false _ _ hpattern (.inl hne)) ?_
  refine reads_bind (reads_readBounded _ true _ _ directive.hreplacement (.inr rfl)) ?_
  refine reads_bind (reads_readGlobalFlag _ _ (ended_gapText directive.gap input (.inr hinput))) ?_
  rw [directive.hcompile]
  exact reads_pure _ _

theorem reads_readMoreDirectives (directives : List (Directive compile)) (steps : Nat)
    (transforms : List Transform) (input : List Char)
    (hsteps : (directivesText directives).length ≤ steps) (hinput : Closed input) :
    Reads (readMoreDirectives compile steps transforms) (directivesText directives ++ input)
      (transforms ++ directives.map Directive.transform) input := by
  induction directives generalizing steps transforms with
  | nil =>
      rw [List.map_nil, List.append_nil]
      cases steps with
      | zero => exact reads_pure _ _
      | succ steps =>
          obtain ⟨character, more, rfl, hc⟩ := hinput
          refine reads_bind (reads_remaining _) ?_
          rcases hc with rfl | rfl <;> exact reads_pure _ _
  | cons directive rest ih =>
      obtain ⟨steps, rfl⟩ : ∃ less, steps = less + 1 :=
        Nat.exists_eq_add_one_of_ne_zero (by simp [directivesText, Directive.text] at hsteps; omega)
      have hrest : (directivesText rest).length ≤ steps := by
        simp only [directivesText, List.flatMap_cons, List.length_append, Directive.text,
          List.length_cons] at hsteps ⊢
        omega
      have hmore := ih steps (transforms ++ [directive.transform]) hrest
      rw [List.append_assoc] at hmore
      have htext : directivesText (directive :: rest) ++ input =
          '~' :: (directive.lead.text ++ directive.separator :: (directive.pattern ++
            directive.separator :: (directive.replacement ++ directive.separator ::
              ((if directive.global then ['g'] else []) ++
                (gapText directive.gap ++ (directivesText rest ++ input)))))) := by
        simp only [directivesText, List.flatMap_cons, Directive.text, List.cons_append,
          List.append_assoc]
      have hbarred := barred_directives rest input hinput
      rw [htext]
      refine reads_bind (reads_remaining _) ?_
      refine reads_bind (reads_skip 1 _) ?_
      refine reads_bind (reads_skipToContinuation directive.lead _
        (solid_separator true _ _ directive.hseparator)) ?_
      refine reads_bind (reads_readDirective directive _ (hbarred.ended _)) ?_
      exact reads_bind (reads_skipBlanks false _ _ (hbarred.solid _)) hmore

theorem reads_readDirectives (directives : List (Directive compile)) (input : List Char)
    (hinput : Closed input) :
    Reads (readDirectives compile) (directivesText directives ++ input)
      (directives.map Directive.transform) input := by
  refine reads_bind (reads_remaining _) ?_
  exact reads_readMoreDirectives directives _ [] input (by simp) hinput

end PhraseGrammar.Reading
