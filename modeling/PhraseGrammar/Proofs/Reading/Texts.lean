import PhraseGrammar.Proofs.Reading.Directives

namespace PhraseGrammar.Reading

open Written

variable {ω : Type} [Weight ω] {compile : Compiler}

section Drafts

omit [Weight ω] in
@[simp] theorem add_nil (draft : Draft ω) : draft.add [] = draft := by
  simp [Draft.add]

omit [Weight ω] in
@[simp] theorem add_add (draft : Draft ω) (left right : List Char) :
    (draft.add left).add right = draft.add (left ++ right) := by
  simp [Draft.add, String.append_assoc]

def draftAfter {free : Bool} : Pieces compile free → Draft ω → Draft ω
  | .nil _, draft => draft
  | .literal literal rest, draft => draftAfter rest (draft.add literal.characters)
  | .reference _ name rest, draft => draftAfter rest (draft.push (.reference name.name none))
  | .inline _ equalized _ body _ rest, draft =>
      draftAfter rest (draft.push (.inline (body.rule equalized none)))

omit [Weight ω] in
@[simp] theorem finish_push (draft : Draft ω) (part : Part ω) :
    (draft.push part).finish = draft.finish.push part := by
  simp [Draft.push, Draft.finish, Choice.pushLiteral]

omit [Weight ω] in
-- A literal is held back in the draft, and pushed before what follows it.
theorem finish_add (draft : Draft ω) (literal : Literal) (h : draft.literal = "") :
    (draft.add literal.characters).finish =
      draft.finish.push (.literal (String.ofList literal.characters)) := by
  have hne : String.ofList literal.characters ≠ "" := fun he =>
    literal.hne (by simpa using congrArg String.toList he)
  simp [Draft.add, Draft.finish, Choice.pushLiteral, h, hne]

theorem finish_draftAfter {free : Bool} : ∀ (pieces : Pieces compile free) (draft : Draft ω),
    (free → draft.literal = "") →
    (draftAfter pieces draft).finish =
      { draft.finish with parts := draft.finish.parts ++ pieces.parts }
  | .nil _, draft, _ => by
      rw [draftAfter, Pieces.parts, List.append_nil]
      rcases draft.finish with ⟨_, _, _, _⟩
      rfl
  | .literal literal rest, draft, h => by
      rw [draftAfter, finish_draftAfter rest _ (by simp), finish_add draft literal (h rfl)]
      simp [Pieces.parts, Choice.push]
  | .reference _ name rest, draft, _ => by
      rw [draftAfter, finish_draftAfter rest _ (fun _ => rfl), finish_push]
      simp [Pieces.parts, Choice.push]
  | .inline _ equalized _ body _ rest, draft, _ => by
      rw [draftAfter, finish_draftAfter rest _ (fun _ => rfl), finish_push]
      simp [Pieces.parts, Choice.push]

end Drafts

section Groups

-- A text that braces around it make a group: it does not close them, and it
-- does not start a rule.
structure IsGroup (body : List Char) : Prop where
  closed : '}' ∉ body
  ne_equals (more : List Char) : body ≠ '=' :: more
  ne_colon (more : List Char) : body ≠ ':' :: '=' :: more

variable (body rest more : List Char)

instance : Decidable (IsGroup body) :=
  decidable_of_iff ('}' ∉ body ∧ body.head? ≠ some '=' ∧ body.take 2 ≠ [':', '=']) <| by
    constructor
    · rintro ⟨hclosed, hequals, hcolon⟩
      refine ⟨hclosed, ?_, ?_⟩
      · rintro more rfl
        exact hequals rfl
      · rintro more rfl
        exact hcolon rfl
    · rintro ⟨hclosed, hequals, hcolon⟩
      refine ⟨hclosed, ?_, fun htake => ?_⟩
      · intro hhead
        obtain ⟨more, hmore⟩ := List.head?_eq_some_iff.mp hhead
        exact hequals more hmore
      · apply hcolon (body.drop 2)
        rw [← List.take_append_drop 2 body, htake]
        rfl

-- What a group starts with is in its body, unless it closes the group.
theorem exists_cons_of_body (first : Char) (hfirst : first ≠ '}')
    (htext : body ++ '}' :: rest = first :: more) :
    ∃ others, body = first :: others ∧ others ++ '}' :: rest = more := by
  rcases List.append_eq_cons_iff.mp htext with ⟨_, hclosing⟩ | ⟨others, hbody, hmore⟩
  · exact absurd (List.cons.inj hclosing).1.symm hfirst
  · exact ⟨others, hbody, hmore.symm⟩

theorem eq_singleton_of_body (hclosed : '}' ∉ body) (first : Char) (hfirst : first ≠ '}')
    (htext : body ++ '}' :: rest = first :: '}' :: more) : body = [first] := by
  obtain ⟨others, rfl, hothers⟩ := exists_cons_of_body body rest _ first hfirst htext
  cases others with
  | nil => rfl
  | cons second others =>
      obtain rfl := (List.cons.inj hothers).1
      exact absurd (List.mem_cons_of_mem _ List.mem_cons_self) hclosed

end Groups

section Elements

variable {τ : Type} (text : τ → List Char) (elements : List τ)

theorem length_le_flatMap (hsome : ∀ element, 0 < (text element).length) (rest : List Char) :
    elements.length ≤ (elements.flatMap text ++ rest).length := by
  induction elements with
  | nil => exact Nat.zero_le _
  | cons element elements ih =>
      have helement := hsome element
      rw [List.flatMap_cons, List.append_assoc, List.length_append, List.length_cons]
      omega

theorem length_text_le (element : τ) (h : element ∈ elements) :
    (text element).length ≤ (elements.flatMap text).length :=
  (List.sublist_flatten_of_mem (List.mem_map_of_mem h)).length_le

end Elements

section Quoted

variable (inner : Reader (Rule ω))

omit [Weight ω] in
-- Braces around a text that no other reading applies to.
theorem reads_addGroup (body input : List Char) (draft : Draft ω) (h : IsGroup body)
    (hopen : body ≠ ['(']) (hclose : body ≠ [')']) :
    Reads (readBraces inner draft) ('{' :: (body ++ '}' :: input)) (draft.addGroup body) input := by
  have htake := takeWhile_closed body input h.closed
  have hlength : body.length ≠ (body ++ '}' :: input).length := by simp
  refine reads_bind (reads_remaining _) ?_
  rw [List.drop_succ_cons, List.drop_zero]
  split
  next htext => exact absurd (eq_singleton_of_body _ _ _ h.closed _ (by decide) htext) hopen
  next htext => exact absurd (eq_singleton_of_body _ _ _ h.closed _ (by decide) htext) hclose
  next htext =>
    obtain ⟨others, hbody, _⟩ := exists_cons_of_body _ _ _ _ (by decide) htext
    exact absurd hbody (h.ne_equals others)
  next htext =>
    obtain ⟨others, hbody, hothers⟩ := exists_cons_of_body _ _ _ _ (by decide) htext
    obtain ⟨last, rfl, _⟩ := exists_cons_of_body _ _ _ _ (by decide) hothers
    exact absurd hbody (h.ne_colon last)
  · simp only [htake, hlength, if_false]
    have hskip := reads_skip (body.length + 2) ('{' :: (body ++ '}' :: input))
    have hdrop : ('{' :: (body ++ '}' :: input)).drop (body.length + 2) = input := by simp
    rw [hdrop] at hskip
    exact reads_bind hskip (reads_pure _ _)

omit [Weight ω] in
theorem reads_readBraces (body input : List Char) (draft : Draft ω) (hbody : '}' ∉ body)
    (hhead : ∃ character ∈ body.head?, character ≠ '(' ∧ character ≠ ')' ∧ character ≠ '=' ∧
      character ≠ ':') :
    Reads (readBraces inner draft) ('{' :: (body ++ '}' :: input)) (draft.addGroup body) input := by
  obtain ⟨first, hfirst, hparen, hclose, hequals, hcolon⟩ := hhead
  have hne (other : Char) (more : List Char) (hother : first ≠ other) : body ≠ other :: more := by
    rintro rfl
    exact hother (Option.some.inj hfirst).symm
  refine reads_addGroup inner body input draft ⟨hbody, ?_, ?_⟩ (hne _ _ hparen) (hne _ _ hclose)
  · exact fun more => hne _ more hequals
  · exact fun more => hne _ _ hcolon

omit [Weight ω] in
theorem reads_quotedBraces (quote : Char) (hquote : quote ≠ '{') (steps : Nat)
    (draft middle result : Draft ω) (input between rest : List Char)
    (hbraces : Reads (readBraces inner draft) ('{' :: input) middle between)
    (h : Reads (readQuotedBody inner quote steps middle) between result rest) :
    Reads (readQuotedBody inner quote (steps + 1) draft) ('{' :: input) result rest := by
  refine reads_bind (reads_remaining _) ?_
  simp only [hquote.symm, if_false, if_true]
  exact reads_bind hbraces h

omit [Weight ω] in
theorem reads_quotedCharacter (quote character : Char) (hquote : character ≠ quote)
    (hbrace : character ≠ '{') (steps : Nat) (draft result : Draft ω) (input rest : List Char)
    (h : Reads (readQuotedBody inner quote steps (draft.add [character])) input result rest) :
    Reads (readQuotedBody inner quote (steps + 1) draft) (character :: input) result rest := by
  refine reads_bind (reads_remaining _) ?_
  simp only [hquote, hbrace, if_false]
  exact reads_bind (reads_skip 1 _) h

omit [Weight ω] in
-- What can be read in one step each is read one after another, up to the quote.
theorem reads_quotedElements {τ : Type} (text : τ → List Char) (adds : Draft ω → τ → Draft ω)
    (quote : Char) (elements : List τ)
    (hstep : ∀ element ∈ elements, ∀ steps draft result input rest,
      Reads (readQuotedBody inner quote steps (adds draft element)) input result rest →
        Reads (readQuotedBody inner quote (steps + 1) draft) (text element ++ input) result rest)
    (steps : Nat) (hsteps : elements.length ≤ steps) (draft : Draft ω) (rest : List Char) :
    Reads (readQuotedBody inner quote steps draft) (elements.flatMap text ++ quote :: rest)
      (elements.foldl adds draft) (quote :: rest) := by
  induction elements generalizing steps draft with
  | nil =>
      cases steps with
      | zero => exact reads_pure _ _
      | succ steps =>
          refine reads_bind (reads_remaining _) ?_
          simp only [List.flatMap_nil, List.nil_append, if_true]
          exact reads_pure _ _
  | cons element elements ih =>
      obtain ⟨hfirst, hrest⟩ := List.forall_mem_cons.mp hstep
      obtain ⟨less, rfl⟩ := Nat.exists_eq_add_of_le' (Nat.le_trans (Nat.succ_pos _) hsteps)
      rw [List.flatMap_cons, List.append_assoc]
      apply hfirst
      exact ih hrest less (Nat.le_of_succ_le_succ hsteps) (adds draft element)

omit [Weight ω] in
theorem reads_escaped (character : Char) (steps : Nat) (draft : Draft ω) (input rest : List Char)
    (result : Draft ω)
    (h : Reads (readQuotedBody inner '\"' steps (draft.add [character])) input result rest) :
    Reads (readQuotedBody inner '\"' (steps + 1) draft) (escaped character ++ input) result
      rest := by
  by_cases hbrace : character = '{'
  · subst hbrace
    refine reads_quotedBraces inner '\"' (by decide) steps draft _ result _ _ rest ?_ h
    exact reads_bind (reads_remaining _) (reads_bind (reads_skip 3 _) (reads_pure _ _))
  by_cases hquote : character = '\"'
  · subst hquote
    refine reads_quotedBraces inner '\"' (by decide) steps draft _ result _ _ rest ?_ h
    exact reads_readBraces inner ['\"'] input draft (by decide) ⟨'\"', rfl, by decide⟩
  · rw [escaped, if_neg hbrace, if_neg hquote]
    exact reads_quotedCharacter inner _ character hquote hbrace steps draft result input rest h

omit [Weight ω] in
theorem reads_literal (characters : List Char) (steps : Nat) (draft : Draft ω)
    (input rest : List Char) (result : Draft ω)
    (h : Reads (readQuotedBody inner '\"' steps (draft.add characters)) input result rest) :
    Reads (readQuotedBody inner '\"' (steps + characters.length) draft)
      (characters.flatMap escaped ++ input) result rest := by
  induction characters generalizing draft with
  | nil => rwa [add_nil] at h
  | cons character more ih =>
      rw [List.flatMap_cons, List.append_assoc]
      refine reads_escaped inner character _ draft _ rest result (ih _ ?_)
      rwa [add_add]

end Quoted

theorem equalized_rule (body : Body compile) :
    ({ (body.rule false none : Rule ω) with equalized := true } : Rule ω) =
      body.rule true none := by
  cases body
  rw [Body.rule, Body.rule]
  rfl

-- The text of a quotation begins with a quote, and so do those of quotations
-- and of a body.
theorem exists_quotationText (quotation : Quotation compile) :
    ∃ more, quotation.text = '\"' :: more := by
  obtain ⟨pieces, gap, weight⟩ := quotation
  rw [Quotation.text]
  exact ⟨_, rfl⟩

theorem exists_quotationsText (quotations : Quotations compile) :
    ∃ more, quotations.text = '\"' :: more := by
  cases quotations with
  | last quotation =>
      rw [Quotations.text]
      exact exists_quotationText quotation
  | more quotation lead rest =>
      obtain ⟨more, he⟩ := exists_quotationText quotation
      rw [Quotations.text, he]
      exact ⟨_, rfl⟩

theorem solid_quotation (quotation : Quotation compile) (rest : List Char) :
    Solid true (quotation.text ++ rest) := by
  obtain ⟨more, he⟩ := exists_quotationText quotation
  rw [he]
  exact solid_cons true _ _ (by decide)

theorem solid_body (body : Body compile) (rest : List Char) : Solid true (body.text ++ rest) := by
  obtain ⟨quotations, directives⟩ := body
  obtain ⟨more, he⟩ := exists_quotationsText quotations
  rw [Body.text, he]
  exact solid_cons true _ _ (by decide)

theorem closed_lineText (line : Option (List (Blank true))) (rest : List Char) :
    Closed (lineText line ++ '}' :: rest) := by
  cases line with
  | none => exact ⟨'}', rest, rfl, .inr rfl⟩
  | some gap => exact ⟨'\n', _, rfl, .inl rfl⟩

theorem reads_closeInline (line : Option (List (Blank true))) (input : List Char) :
    Reads closeInline (lineText line ++ '}' :: input) () input := by
  have hsolid : Solid true ('}' :: input) := solid_cons true _ _ (by decide)
  have hblanks : Reads (skipBlanks true) (lineText line ++ '}' :: input) () ('}' :: input) := by
    cases line with
    | none => exact reads_skipBlanks_nil true _ hsolid
    | some gap => exact reads_skipBlanks true (.newline :: gap) _ hsolid
  refine reads_bind hblanks (reads_bind (reads_remaining _) ?_)
  simp only [List.head?_cons, beq_self_eq_true, if_true]
  exact reads_skip 1 _

-- An inline rule in a quoted text, given that its rule can be read.
theorem reads_inlineBraces (depth : Nat) (draft : Draft ω) (equalized : Bool)
    (lead : List (Blank true)) (body : Body compile) (line : Option (List (Blank true)))
    (input : List Char)
    (hbody : Reads (readRule compile depth) (body.text ++ (lineText line ++ '}' :: input))
      (body.rule false none : Rule ω) (lineText line ++ '}' :: input)) :
    Reads (readBraces (readInline compile depth) draft)
      ('{' :: (sign equalized ++ (gapText lead ++ (body.text ++ (lineText line ++ '}' :: input)))))
      (draft.push (.inline (body.rule equalized none))) input := by
  have hinline : Reads (readInline compile depth) (body.text ++ (lineText line ++ '}' :: input))
      (body.rule false none : Rule ω) input :=
    reads_bind hbody (reads_bind (reads_closeInline line input) (reads_pure _ _))
  refine reads_bind (reads_remaining _) ?_
  cases equalized with
  | false =>
      refine reads_bind (reads_skip 2 _) ?_
      refine reads_bind (reads_skipBlanks true lead _ (solid_body body _)) ?_
      exact reads_bind hinline (reads_pure _ _)
  | true =>
      refine reads_bind (reads_skip 3 _) ?_
      refine reads_bind (reads_skipBlanks true lead _ (solid_body body _)) ?_
      refine reads_bind hinline ?_
      rw [equalized_rule]
      exact reads_pure _ _

omit [Weight ω] in
theorem reads_referenceBraces (inner : Reader (Rule ω)) (draft : Draft ω) (name : Name)
    (input : List Char) :
    Reads (readBraces inner draft) ('{' :: (name.characters ++ '}' :: input))
      (draft.push (.reference name.name none)) input := by
  obtain ⟨first, more, he⟩ := List.exists_cons_of_ne_nil name.hne
  have hfirst : isNameCharacter first := name.hcharacters first (he ▸ List.mem_cons_self)
  have hbody : '}' ∉ name.characters := fun hm =>
    ne_of_isNameCharacter '}' '}' (name.hcharacters '}' hm) (by decide) rfl
  have hgroup : draft.addGroup name.characters = draft.push (.reference name.name none) := by
    have hstar : first ≠ '*' := ne_of_isNameCharacter first '*' hfirst (by decide)
    have hall : name.characters.all isNameCharacter = true :=
      List.all_eq_true.mpr name.hcharacters
    unfold Draft.addGroup
    split
    · rename_i heq
      exact absurd (List.cons.inj (he.symm.trans heq)).1 hstar
    · rw [if_pos (by simp [hall, name.hne])]
      rfl
  rw [← hgroup]
  refine reads_readBraces inner name.characters input draft hbody ⟨first, by rw [he]; rfl, ?_⟩
  exact ⟨ne_of_isNameCharacter first _ hfirst (by decide),
    ne_of_isNameCharacter first _ hfirst (by decide),
    ne_of_isNameCharacter first _ hfirst (by decide),
    ne_of_isNameCharacter first _ hfirst (by decide)⟩

-- A text in quotes is read up to the gap after its weight, or up to what
-- follows it if it has none.
theorem reads_quoted (inner : Reader (Rule ω)) (pieces : Pieces compile true)
    (gap : List (Blank false)) (weight : Option (Numeral × List (Blank false))) (input : List Char)
    (hsolid : Solid false input) (hended : Ended input)
    (hpieces : ∀ steps, pieces.text.length ≤ steps →
      Reads (readQuotedBody inner '\"' steps Draft.empty)
        (pieces.text ++ '\"' :: (gapText gap ++ (weightText weight ++ input)))
        (draftAfter pieces Draft.empty : Draft ω)
        ('\"' :: (gapText gap ++ (weightText weight ++ input)))) :
    Reads (readChoice inner) ((Quotation.mk pieces gap weight).text ++ input)
      (Quotation.mk pieces gap weight).choice (gapText (gapLeft weight) ++ input) := by
  have hchoice : ({ (draftAfter pieces Draft.empty : Draft ω).finish with
        fixedWeight := weightValue weight } : Choice ω) =
      (Quotation.mk pieces gap weight).choice := by
    rw [finish_draftAfter pieces Draft.empty (fun _ => rfl), Quotation.choice]
    rfl
  have htext : (Quotation.mk pieces gap weight).text ++ input =
      '\"' :: (pieces.text ++ '\"' :: (gapText gap ++ (weightText weight ++ input))) := by
    simp only [Quotation.text, List.cons_append, List.append_assoc]
  have hafter := solid_weightText weight input hsolid
  rw [htext, ← hchoice]
  refine reads_bind (reads_remaining _) ?_
  simp only [isSpace, endsBareText, isQuote]
  refine reads_bind (reads_skip 1 _) (reads_bind (reads_remaining _) ?_)
  refine reads_bind (hpieces _ (by simp)) (reads_bind (reads_remaining _) ?_)
  simp only [List.isEmpty_cons]
  refine reads_bind (reads_skip 1 _) (reads_bind (reads_skipBlanks false gap _ hafter) ?_)
  exact reads_bind (reads_weight weight input hended) (reads_pure _ _)

end PhraseGrammar.Reading
