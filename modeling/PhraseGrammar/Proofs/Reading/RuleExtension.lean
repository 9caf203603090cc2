import PhraseGrammar.Proofs.Reading.Extension

namespace PhraseGrammar.Reading

variable {ω : Type} {tail : List Char}

theorem exists_cons_of_append {text rest : List Char} {first : Char}
    (h : text ++ tail = first :: rest) (hne : text ≠ []) :
    ∃ more, text = first :: more ∧ more ++ tail = rest := by
  cases text with
  | nil => exact absurd rfl hne
  | cons character more =>
      obtain ⟨rfl, hrest⟩ := List.cons.inj h
      exact ⟨more, rfl, hrest⟩

theorem exists_cons_cons_of_append {text rest : List Char} {first second : Char}
    (h : text ++ tail = first :: second :: rest) (hmem : '}' ∈ text) (hfirst : first ≠ '}') :
    ∃ more, text = first :: second :: more := by
  obtain ⟨more, rfl, hmore⟩ := exists_cons_of_append h (List.ne_nil_of_mem hmem)
  have hnext : '}' ∈ more := (List.mem_cons.mp hmem).resolve_left hfirst.symm
  obtain ⟨more, rfl, -⟩ := exists_cons_of_append hmore (List.ne_nil_of_mem hnext)
  exact ⟨more, rfl⟩

section Braces

variable {α β : Type}

-- A reader that gives nothing before it has come to a closing brace.
def NeedsBrace (reader : Reader α) : Prop :=
  ∀ cursor value left, reader cursor = .ok (value, left) → '}' ∈ cursor.rest

theorem NeedsBrace.pending {reader : Reader α} (h : NeedsBrace reader) {cursor left : Cursor}
    {value : α} (hread : reader cursor = .ok (value, left)) : Pending tail cursor.rest :=
  have hmem := h cursor value left hread
  ⟨List.ne_nil_of_mem hmem, .inr hmem⟩

theorem NeedsBrace.bind {first : Reader α} (h : NeedsBrace first) (next : α → Reader β) :
    NeedsBrace (first >>= next) := by
  intro cursor result left hread
  obtain ⟨value, middle, hmiddle, -⟩ := bind_eq_ok hread
  exact h cursor value middle hmiddle

theorem needsBrace_bind {first : Reader α} {next : α → Reader β} (hfirst : Advances first)
    (hnext : ∀ value, NeedsBrace (next value)) : NeedsBrace (first >>= next) := by
  intro cursor result left hread
  obtain ⟨value, middle, hmiddle, hleft⟩ := bind_eq_ok hread
  exact (hfirst.isSuffix hmiddle).subset (hnext value middle result left hleft)

-- Reads the brace that closes a rule.
def readClosing : Reader Unit := do
  if (← remaining).head? == some '}' then skip 1 else fail (.closingExpected '}')

theorem closeInline_eq : closeInline = skipBlanks true >>= fun _ => readClosing :=
  rfl

theorem needsBrace_readClosing : NeedsBrace readClosing := by
  rintro ⟨text, position⟩ value left hread
  obtain ⟨_, _, ⟨⟩, hclose⟩ := bind_eq_ok hread
  split at hclose
  · next hhead => exact List.mem_of_head? (beq_iff_eq.mp hhead)
  · exact nomatch hclose

theorem extends_readClosing : Extends tail Anything readClosing readClosing := by
  refine extends_remaining fun text position => ?_
  cases text with
  | nil => exact extends_fail _ _ _
  | cons character rest =>
      exact extendsAt_ite (fun _ => extendsAt_skip 1 (by simp)) fun _ => extends_fail _ _ _

theorem needsBrace_closeInline : NeedsBrace closeInline :=
  needsBrace_bind (advances_skipBlanks true) fun _ => needsBrace_readClosing

theorem extends_closeInline : Extends tail Anything closeInline closeInline := by
  rw [closeInline_eq]
  exact fun cursor => extendsAt_bind_of (extends_skipBlanks_pending true cursor)
    (fun _ middle _ => extends_readClosing middle)
    fun _ _ _ _ hread _ _ => needsBrace_readClosing.pending hread

end Braces

section Inline

variable {readInline other : Reader (Rule ω)}

theorem extends_readInner (hinline : Extends tail Anything readInline other)
    (hbrace : NeedsBrace readInline) (finish : Rule ω → Draft ω) :
    Extends tail Anything (readInner readInline finish) (readInner other finish) := by
  exact fun cursor => extendsAt_bind_of (extends_skipBlanks_pending true cursor)
    (fun _ middle _ => extends_bind hinline (fun _ => extends_pure _) middle)
    fun _ _ _ _ hread _ _ => (hbrace.bind _).pending hread

theorem mem_of_readGroup {inside : List Char} {draft value : Draft ω} {cursor left : Cursor}
    (hread : readGroup inside draft cursor = .ok (value, left)) : '}' ∈ inside := by
  by_contra hout
  have hopen : ∀ character ∈ inside, (character != '}') = true := fun character hmem =>
    bne_iff_ne.mpr (ne_of_mem_of_not_mem hmem hout)
  have hwhole : inside.takeWhile (· != '}') = inside := by
    simpa using takeWhile_append (· != '}') inside [] hopen nofun
  rw [readGroup, if_pos (congrArg List.length hwhole)] at hread
  cases hread

-- The closing brace has to come before the end, so a group goes on to it.
theorem extendsAt_readGroup (brace : Char) (inside : List Char) (position : Position)
    (draft : Draft ω) : ExtendsAt tail Anything ⟨brace :: inside, position⟩ (readGroup inside draft)
      (readGroup (inside ++ tail) draft) := by
  by_cases hwhole : (inside.takeWhile (· != '}')).length = inside.length
  · intro value left hread
    rw [readGroup, if_pos hwhole] at hread
    cases hread
  · have hbody : (inside.takeWhile (· != '}')).length < inside.length :=
      Nat.lt_of_le_of_ne (List.takeWhile_sublist _).length_le hwhole
    have hlonger : (inside.takeWhile (· != '}')).length ≠ (inside ++ tail).length := by
      rw [List.length_append]
      omega
    rw [readGroup, readGroup, takeWhile_extended tail _ _ fun h => absurd h hwhole, if_neg hwhole,
      if_neg hlonger]
    refine extendsAt_bind (extendsAt_skip _ ?_) fun _ _ _ => extends_pure _ _
    simp only [List.length_cons]
    omega

theorem extends_readBraces (hinline : Extends tail Anything readInline other)
    (hbrace : NeedsBrace readInline) (draft : Draft ω) :
    Extends tail Anything (readBraces readInline draft) (readBraces other draft) := by
  refine extends_remaining fun text position => ?_
  cases text with
  | nil => exact extends_fail _ _ _
  | cons brace inside =>
      intro value left hread
      rw [List.cons_append, List.drop_succ_cons, List.drop_zero]
      rw [List.drop_succ_cons, List.drop_zero] at hread
      split at hread
      · exact extendsAt_bind (extendsAt_skip 3 (by simp)) (fun _ _ _ => extends_pure _ _) value left
          hread
      · exact extendsAt_bind (extendsAt_skip 3 (by simp)) (fun _ _ _ => extends_pure _ _) value left
          hread
      · exact extendsAt_bind (extendsAt_skip 2 (by simp))
          (fun _ second _ => extends_readInner hinline hbrace _ second) value left hread
      · exact extendsAt_bind (extendsAt_skip 3 (by simp))
          (fun _ second _ => extends_readInner hinline hbrace _ second) value left hread
      · next hopen hclose hequals hcolon =>
          -- With its closing brace a group cannot open otherwise in a longer text.
          have hmem := mem_of_readGroup hread
          generalize hlong : inside ++ tail = long
          split
          next =>
            obtain ⟨more, hmore⟩ := exists_cons_cons_of_append hlong hmem (by decide)
            exact absurd hmore (hopen more)
          next =>
            obtain ⟨more, hmore⟩ := exists_cons_cons_of_append hlong hmem (by decide)
            exact absurd hmore (hclose more)
          next =>
            obtain ⟨more, hmore, -⟩ := exists_cons_of_append hlong (List.ne_nil_of_mem hmem)
            exact absurd hmore (hequals more)
          next =>
            obtain ⟨more, hmore⟩ := exists_cons_cons_of_append hlong hmem (by decide)
            exact absurd hmore (hcolon more)
          next =>
            subst hlong
            exact extendsAt_readGroup brace inside position draft value left hread

section Bare

variable (inner : Reader (Rule ω)) (steps : Nat) (draft : Draft ω) (spaces : List Char)

theorem readBareBody_brace (rest : List Char) (position : Position)
    (hcomment : ∀ tail, rest ≠ '*' :: tail) :
    readBareBody inner (steps + 1) draft spaces ⟨'{' :: rest, position⟩ =
      (readBraces inner (draft.add spaces) >>= fun next => readBareBody inner steps next [])
        ⟨'{' :: rest, position⟩ := by
  cases rest with
  | nil => rfl
  | cons character tail =>
      refine bind_of_ok (rfl : remaining _ = .ok ('{' :: character :: tail, _)) |>.trans ?_
      refine congrFun ?_ _
      split
      next => contradiction
      next heq => exact absurd (List.cons.inj heq).2 (hcomment _)
      next => rfl
      next hbrace heq => exact absurd (List.cons.inj heq).1.symm hbrace

theorem readBareBody_character (character : Char) (rest : List Char) (position : Position)
    (hbrace : character ≠ '{') :
    readBareBody inner (steps + 1) draft spaces ⟨character :: rest, position⟩ =
      (if endsBareText character then
        return draft
      else if isSpace character then
        skip 1 >>= fun _ => readBareBody inner steps draft (spaces ++ [character])
      else
        skip 1 >>= fun _ => readBareBody inner steps (draft.add (spaces ++ [character])) [])
        ⟨character :: rest, position⟩ := by
  refine bind_of_ok (rfl : remaining _ = .ok (character :: rest, _)) |>.trans ?_
  refine congrFun ?_ _
  split
  next => contradiction
  next heq => exact absurd (List.cons.inj heq).1 hbrace
  next heq => exact absurd (List.cons.inj heq).1 hbrace
  next heq =>
    obtain ⟨rfl, -⟩ := List.cons.inj heq
    rfl

end Bare

theorem readBareBody_newline (inner : Reader (Rule ω)) (steps : Nat) (draft : Draft ω)
    (spaces more : List Char) (position : Position) :
    readBareBody inner steps draft spaces ⟨'\n' :: more, position⟩ =
      .ok (draft, ⟨'\n' :: more, position⟩) := by
  cases steps <;> rfl

section Bodies

variable (hinline : Extends tail Anything readInline other) (hbrace : NeedsBrace readInline)
  (hadvances : Advances readInline)

include hinline hbrace hadvances

-- A quotation is read on up to its closing quote.
theorem extendsAt_readQuotedBody (quote : Char) (bound few many : Nat) (draft : Draft ω)
    (cursor : Cursor) (hcursor : cursor.rest.length ≤ bound) (hfew : bound ≤ few)
    (hmany : bound ≤ many) :
    ExtendsAt tail (· ≠ []) cursor (readQuotedBody readInline quote few draft)
      (readQuotedBody other quote many draft) := by
  induction bound generalizing few many draft cursor with
  | zero =>
      obtain ⟨text, position⟩ := cursor
      obtain rfl : text = [] := List.eq_nil_of_length_eq_zero (Nat.le_zero.mp hcursor)
      intro value left hread
      rw [readQuotedBody_nil] at hread
      cases hread
      exact ⟨List.suffix_rfl, fun hleft => absurd rfl hleft⟩
  | succ bound ih =>
      obtain ⟨few, rfl⟩ := Nat.exists_eq_add_of_le' (Nat.le_trans (Nat.succ_pos bound) hfew)
      obtain ⟨many, rfl⟩ := Nat.exists_eq_add_of_le' (Nat.le_trans (Nat.succ_pos bound) hmany)
      have hrest : ∀ draft left, left.rest.length < cursor.rest.length →
          ExtendsAt tail (· ≠ []) left (readQuotedBody readInline quote few draft)
            (readQuotedBody other quote many draft) := fun draft left hlt =>
        ih few many draft left (by omega) (by omega) (by omega)
      obtain ⟨text, position⟩ := cursor
      refine extendsAt_remaining ?_
      cases text with
      | nil =>
          rintro value left ⟨⟩
          exact ⟨List.suffix_rfl, fun hleft => absurd rfl hleft⟩
      | cons character rest =>
          refine extendsAt_ite (fun _ => extends_pure _ _) fun _ => ?_
          refine extendsAt_ite (fun _ => ?_) fun _ => ?_
          · refine extendsAt_bind (extends_readBraces hinline hbrace draft _) fun _ left hread => ?_
            exact hrest _ left
              (shortens_readBraces hadvances draft _ _ _ (List.cons_ne_nil _ _) hread)
          · refine extendsAt_bind (extendsAt_skip 1 (by simp)) fun _ left hread => ?_
            exact hrest _ left (shortens_skip 1 (by omega) _ _ _ (List.cons_ne_nil _ _) hread)

-- A newline ends a text without quotes, just as the end does.
theorem extendsAt_readBareBody (bound few many : Nat) (draft : Draft ω) (spaces : List Char)
    (cursor : Cursor) (hcursor : cursor.rest.length ≤ bound) (hfew : bound ≤ few)
    (hmany : bound ≤ many) :
    ExtendsAt tail (Delimited tail) cursor (readBareBody readInline few draft spaces)
      (readBareBody other many draft spaces) := by
  induction bound generalizing few many draft spaces cursor with
  | zero =>
      obtain ⟨text, position⟩ := cursor
      obtain rfl : text = [] := List.eq_nil_of_length_eq_zero (Nat.le_zero.mp hcursor)
      intro value left hread
      rw [readBareBody_nil] at hread
      cases hread
      refine ⟨List.suffix_rfl, fun hleft => ?_⟩
      obtain ⟨more, rfl⟩ := hleft.exists_newline
      exact readBareBody_newline other many draft spaces more position
  | succ bound ih =>
      obtain ⟨few, rfl⟩ := Nat.exists_eq_add_of_le' (Nat.le_trans (Nat.succ_pos bound) hfew)
      obtain ⟨many, rfl⟩ := Nat.exists_eq_add_of_le' (Nat.le_trans (Nat.succ_pos bound) hmany)
      have hrest : ∀ draft spaces left, left.rest.length < cursor.rest.length →
          ExtendsAt tail (Delimited tail) left (readBareBody readInline few draft spaces)
            (readBareBody other many draft spaces) := fun draft spaces left hlt =>
        ih few many draft spaces left (by omega) (by omega) (by omega)
      obtain ⟨text, position⟩ := cursor
      intro value left hread
      rcases text with _ | ⟨character, rest⟩
      · cases hread
        refine ⟨List.suffix_rfl, fun hleft => ?_⟩
        obtain ⟨more, rfl⟩ := hleft.exists_newline
        rfl
      by_cases hopen : character = '{'
      · subst hopen
        by_cases hcomment : ∃ more, rest = '*' :: more
        · obtain ⟨more, rfl⟩ := hcomment
          refine extendsAt_remaining (extendsAt_bind (extends_skipComment _)
            fun _ middle hskip => ?_) value left hread
          exact hrest _ _ middle (shortens_skipComment _ _ _ (List.cons_ne_nil _ _) hskip)
        · have hshort : ∀ more, rest ≠ '*' :: more := fun more h => hcomment ⟨more, h⟩
          rw [readBareBody_brace _ _ _ _ _ _ hshort] at hread
          have hlong : ∀ more, rest ++ tail ≠ '*' :: more := by
            intro more h
            obtain rfl | hne := eq_or_ne rest []
            · exact nomatch hread
            · obtain ⟨shorter, hshorter, -⟩ := exists_cons_of_append h hne
              exact hshort shorter hshorter
          rw [show Cursor.extended tail ⟨'{' :: rest, position⟩ = ⟨'{' :: (rest ++ tail), position⟩
            from rfl, readBareBody_brace other many draft spaces _ position hlong]
          refine extendsAt_bind (extends_readBraces hinline hbrace _ _) (fun _ middle hbraces => ?_)
            value left hread
          exact hrest _ _ middle
            (shortens_readBraces hadvances _ _ _ _ (List.cons_ne_nil _ _) hbraces)
      · rw [readBareBody_character _ _ _ _ _ _ _ hopen] at hread
        rw [show Cursor.extended tail ⟨character :: rest, position⟩ =
          ⟨character :: (rest ++ tail), position⟩ from rfl,
          readBareBody_character other many draft spaces _ _ position hopen]
        have hskip : ∀ draft spaces,
            ExtendsAt tail (Delimited tail) ⟨character :: rest, position⟩
              (skip 1 >>= fun _ => readBareBody readInline few draft spaces)
              (skip 1 >>= fun _ => readBareBody other many draft spaces) := fun draft spaces =>
          extendsAt_bind (extendsAt_skip 1 (by simp)) fun _ middle hskip =>
            hrest _ _ middle (shortens_skip 1 (by omega) _ _ _ (List.cons_ne_nil _ _) hskip)
        refine extendsAt_ite (fun _ => extends_pure _ _) (fun _ => ?_) value left hread
        exact extendsAt_ite (fun _ => hskip _ _) fun _ => hskip _ _

variable [Weight ω]

theorem extendsAt_readQuoted (quote : Char) (cursor : Cursor) (hne : cursor.rest ≠ []) :
    ExtendsAt tail (Delimited tail) cursor (readQuoted readInline quote)
      (readQuoted other quote) := by
  refine extendsAt_bind (extendsAt_skip 1 (List.length_pos_iff.mpr hne)) fun _ middle _ => ?_
  refine extendsAt_remaining (extendsAt_bind_partway ?_ (fun draft => ?_) fun draft second _ => ?_)
  · exact extendsAt_readQuotedBody hinline hbrace hadvances quote _ _ _ _ middle (Nat.le_refl _)
      (Nat.le_refl _) (by simp)
  · exact failsAtEnd_remaining (failsAtEnd_fail _)
  · refine extendsAt_remaining (extendsAt_unless _ (fun hsome => ?_) fun hsome => ?_)
    · simpa using fun hnil => absurd hnil (by simpa using hsome)
    have hpositive : 1 ≤ second.rest.length := by
      rw [List.isEmpty_iff] at hsome
      exact List.length_pos_iff.mpr hsome
    refine extendsAt_bind (extendsAt_skip 1 hpositive) fun _ third _ => ?_
    refine extends_bind_delimited extends_skipBlanks_line (fun _ => ?_) third
    exact extends_bind_delimited extends_readWeight fun _ => extends_pure _

theorem extends_readBare :
    Extends tail (Delimited tail) (readBare readInline) (readBare other) := by
  refine extends_remaining fun text position => ?_
  refine extendsAt_bind_delimited ?_ fun _ _ _ => extends_pure _ _
  exact extendsAt_readBareBody hinline hbrace hadvances text.length _ _ _ _ _ (Nat.le_refl _)
    (Nat.le_refl _) (by rw [List.length_append]; omega)

omit hinline hbrace hadvances in
theorem failsAtEnd_readChoice : FailsAtEnd (readChoice readInline) :=
  failsAtEnd_remaining (failsAtEnd_fail _)

theorem extends_readChoice :
    Extends tail (Delimited tail) (readChoice readInline) (readChoice other) := by
  refine extends_remaining fun text position => ?_
  cases text with
  | nil => exact extends_fail _ _ _
  | cons character rest =>
      refine extendsAt_ite (fun _ => extends_fail _ _ _) fun _ => ?_
      refine extendsAt_ite (fun _ => ?_) fun _ => ?_
      · exact extendsAt_readQuoted hinline hbrace hadvances character _ (List.cons_ne_nil _ _)
      · exact extends_readBare hinline hbrace hadvances _

omit hinline hbrace hadvances in
theorem readMoreChoices_newline (inner : Reader (Rule ω)) (steps : Nat)
    (choices : List (Choice ω)) (more : List Char) (position : Position) :
    readMoreChoices inner steps choices ⟨'\n' :: more, position⟩ =
      .ok (choices, ⟨'\n' :: more, position⟩) := by
  cases steps <;> rfl

omit hinline hbrace hadvances in
theorem extendsAt_readMoreChoices_nil (few many : Nat) (choices : List (Choice ω))
    (position : Position) :
    ExtendsAt tail (Delimited tail) ⟨[], position⟩ (readMoreChoices readInline few choices)
      (readMoreChoices other many choices) := by
  intro value left hread
  rw [readMoreChoices_nil] at hread
  cases hread
  refine ⟨List.suffix_rfl, fun hleft => ?_⟩
  obtain ⟨more, rfl⟩ := hleft.exists_newline
  exact readMoreChoices_newline other many choices more position

theorem extendsAt_readMoreChoices (bound few many : Nat) (choices : List (Choice ω))
    (cursor : Cursor) (hcursor : cursor.rest.length ≤ bound) (hfew : bound ≤ few)
    (hmany : bound ≤ many) :
    ExtendsAt tail (Delimited tail) cursor (readMoreChoices readInline few choices)
      (readMoreChoices other many choices) := by
  induction bound generalizing few many choices cursor with
  | zero =>
      obtain ⟨text, position⟩ := cursor
      obtain rfl : text = [] := List.eq_nil_of_length_eq_zero (Nat.le_zero.mp hcursor)
      exact extendsAt_readMoreChoices_nil few many choices position
  | succ bound ih =>
      obtain ⟨text, position⟩ := cursor
      cases text with
      | nil => exact extendsAt_readMoreChoices_nil few many choices position
      | cons character rest =>
          obtain ⟨few, rfl⟩ := Nat.exists_eq_add_of_le' (Nat.le_trans (Nat.succ_pos bound) hfew)
          obtain ⟨many, rfl⟩ := Nat.exists_eq_add_of_le' (Nat.le_trans (Nat.succ_pos bound) hmany)
          refine extendsAt_remaining ?_
          by_cases hbar : character = '|'
          · subst hbar
            refine extendsAt_bind (extendsAt_skip 1 (by simp)) fun _ second hsecond => ?_
            refine extendsAt_bind_pending (extends_skipToContinuation second)
              (fun _ => failsAtEnd_bind failsAtEnd_readChoice) fun _ third hthird => ?_
            refine extendsAt_bind_delimited (extends_readChoice hinline hbrace hadvances third)
              fun _ fourth hfourth => ?_
            refine extendsAt_bind_delimited (extends_skipBlanks_line fourth)
              fun _ fifth hfifth => ?_
            refine ih few many _ fifth ?_ (by omega) (by omega)
            have hshorter := shortens_skip 1 (by omega) _ _ _ (List.cons_ne_nil _ _) hsecond
            have hlead := advances_skipToContinuation.length_le hthird
            have hchoice := (advances_readChoice hadvances).length_le hfourth
            have hblanks := (advances_skipBlanks false).length_le hfifth
            omega
          · split
            next heq => exact absurd (List.cons.inj heq).1 hbar
            next =>
              split
              next heq => exact absurd (List.cons.inj heq).1 hbar
              next => exact extends_pure _ _

theorem extends_readChoices :
    Extends tail (Delimited tail) (readChoices readInline) (readChoices other) := by
  refine extends_bind_delimited (extends_readChoice hinline hbrace hadvances) fun choice => ?_
  refine extends_bind_delimited extends_skipBlanks_line fun _ => ?_
  exact extends_remaining fun text position => extendsAt_readMoreChoices hinline hbrace hadvances
    text.length _ _ _ _ (Nat.le_refl _) (Nat.le_refl _) (by rw [List.length_append]; omega)

end Bodies

end Inline

section Rules

variable [Weight ω] (compile : Compiler)

theorem needsBrace_readInline (depth : Nat) :
    NeedsBrace (readInline compile depth : Reader (Rule ω)) :=
  needsBrace_bind (advances_readRule compile depth) fun _ => needsBrace_closeInline.bind _

theorem extends_inline (few many : Nat)
    (hrule : Extends tail (Delimited tail) (readRule compile few : Reader (Rule ω))
      (readRule compile many)) :
    Extends tail Anything (readInline compile few : Reader (Rule ω)) (readInline compile many) :=
  fun cursor => extendsAt_bind_of (hrule cursor)
    (fun _ middle _ => extends_bind extends_closeInline (fun _ => extends_pure _) middle)
    fun _ _ _ _ hread _ _ => ((needsBrace_closeInline.bind _).pending hread).2

-- A rule in a longer text is read at a greater depth.
theorem extends_readRule (few many : Nat) (hle : few ≤ many) :
    Extends tail (Delimited tail) (readRule compile few : Reader (Rule ω))
      (readRule compile many) := by
  induction few generalizing many with
  | zero => exact extends_fail _ _
  | succ few ih =>
      obtain ⟨many, rfl⟩ := Nat.exists_eq_add_of_le' (Nat.le_trans (Nat.succ_pos few) hle)
      have hinline := extends_inline compile few many (ih many (by omega))
      rw [readRule_succ, readRule_succ]
      refine extends_bind_delimited (extends_readChoices hinline ?_ ?_) fun choices => ?_
      · exact needsBrace_readInline compile few
      · exact advances_readInline compile few (advances_readRule compile few)
      · exact extends_bind_delimited (extends_readDirectives compile) fun _ => extends_pure _

-- Braces that are closed are read whatever follows them.
theorem extends_readInlineBraces (few many : Nat) (hle : few ≤ many) (draft : Draft ω) :
    Extends tail Anything (readBraces (readInline compile few) draft)
      (readBraces (readInline compile many) draft) :=
  extends_readBraces (extends_inline compile few many (extends_readRule compile few many hle))
    (needsBrace_readInline compile few) draft

theorem failsAtEnd_readRule (depth : Nat) :
    FailsAtEnd (readRule compile depth : Reader (Rule ω)) := by
  intro position value left hread
  rw [readRule_nil] at hread
  exact nomatch hread

theorem extends_readNamed : Extends tail (Delimited tail)
    (readNamed compile : Reader (Option (Assignment ω))) (readNamed compile) := by
  refine extends_bind_delimited extends_readName fun name => ?_
  refine extends_bind_delimited extends_skipBlanks_line fun _ => ?_
  refine extends_bind_delimited extends_readWeight fun weight => ?_
  refine extends_bind_delimited extends_skipBlanks_line fun _ => ?_
  refine extends_bind extends_readOperator fun equalized cursor => ?_
  refine extendsAt_bind_pending (extends_skipToContinuation cursor) (fun _ => ?_) fun _ next _ => ?_
  · exact failsAtEnd_remaining (failsAtEnd_bind (failsAtEnd_readRule compile _))
  refine extends_remaining (fun text position => ?_) next
  refine extendsAt_bind_delimited (extends_readRule compile _ _ (by simp) _) fun rule left _ => ?_
  refine extends_remaining (fun rest position value left hread => ?_) left
  split at hread
  · cases hread
    refine ⟨List.suffix_rfl, fun hleft => ?_⟩
    obtain ⟨more, rfl⟩ := hleft.exists_newline
    rfl
  · exact extends_pure _ _ value left hread
  · exact nomatch hread

end Rules

end PhraseGrammar.Reading
