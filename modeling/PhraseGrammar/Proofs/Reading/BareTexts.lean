import Mathlib.Data.List.DropRight
import PhraseGrammar.Proofs.Reading.Expansions
import PhraseGrammar.Proofs.Reading.Reports

namespace PhraseGrammar.Reading

variable (ω : Type) [Weight ω] (compile : Compiler)

-- What a text without quotes is made of.
inductive Piece where
  | plain (character : Char) (hbrace : character ≠ '{') (hends : endsBareText character = false)
  | comment (body : List Char) (hbody : '}' ∉ body)
  | braces (expansion : Expansion ω compile)

variable {ω compile}

namespace Piece

def text : Piece ω compile → List Char
  | .plain character _ _ => [character]
  | .comment body _ => '{' :: '*' :: (body ++ ['}'])
  | .braces expansion => expansion.text

def isBlank : Piece ω compile → Bool
  | .plain character _ _ => isSpace character
  | .comment _ _ => true
  | .braces _ => false

def Avoids (quote : Char) : Piece ω compile → Prop
  | .plain character _ _ => character ≠ quote
  | _ => True

-- A plain character stands for itself, a space too, and a comment for nothing.
def addTo (draft : Draft ω) : Piece ω compile → Draft ω
  | .plain character _ _ => draft.add [character]
  | .comment _ _ => draft
  | .braces expansion => expansion.addTo draft

theorem text_comment_append (body input : List Char) (hbody : '}' ∉ body) :
    (.comment body hbody : Piece ω compile).text ++ input = '{' :: '*' :: (body ++ '}' :: input) := by
  simp [text]

theorem length_text_pos (piece : Piece ω compile) : 0 < piece.text.length := by
  cases piece <;> exact Nat.succ_pos _

@[simp] theorem fixedWeight_addTo (piece : Piece ω compile) (draft : Draft ω) :
    (piece.addTo draft).choice.fixedWeight = draft.choice.fixedWeight := by
  cases piece with
  | plain character hbrace hends => rfl
  | comment body hbody => rfl
  | braces expansion => exact expansion.fixedWeight_addTo draft

end Piece

def piecesText (pieces : List (Piece ω compile)) : List Char := pieces.flatMap Piece.text

def piecesChoice (pieces : List (Piece ω compile)) : Choice ω :=
  (pieces.foldl Piece.addTo Draft.empty).finish

-- All but the spaces and comments that come last.
def trimmed (pieces : List (Piece ω compile)) : List (Piece ω compile) :=
  pieces.rdropWhile Piece.isBlank

@[simp] theorem piecesText_cons (piece : Piece ω compile) (pieces : List (Piece ω compile)) :
    piecesText (piece :: pieces) = piece.text ++ piecesText pieces :=
  List.flatMap_cons

@[simp] theorem piecesText_append (left right : List (Piece ω compile)) :
    piecesText (left ++ right) = piecesText left ++ piecesText right :=
  List.flatMap_append

theorem length_le_piecesText (pieces : List (Piece ω compile)) (rest : List Char) :
    pieces.length ≤ (piecesText pieces ++ rest).length :=
  length_le_flatMap Piece.text pieces Piece.length_text_pos rest

theorem fixedWeight_piecesChoice (pieces : List (Piece ω compile)) :
    (piecesChoice pieces).fixedWeight = none := by
  have hfold : ∀ draft : Draft ω,
      (pieces.foldl Piece.addTo draft).choice.fixedWeight = draft.choice.fixedWeight := by
    induction pieces with
    | nil => exact fun draft => rfl
    | cons piece pieces ih => exact fun draft => (ih _).trans (piece.fixedWeight_addTo draft)
  rw [piecesChoice, fixedWeight_finish, hfold]
  rfl

section Quoted

variable {quote : Char} (hquote : quote ≠ '{') (depth : Nat)

include hquote

theorem reads_quotedPiece (piece : Piece ω compile) (hplain : piece.Avoids quote)
    (hdepth : piece.text.length ≤ depth + 1) (steps : Nat) (draft result : Draft ω)
    (input rest : List Char)
    (h : Reads (readQuotedBody (readInline compile depth) quote steps (piece.addTo draft)) input
      result rest) :
    Reads (readQuotedBody (readInline compile depth) quote (steps + 1) draft)
      (piece.text ++ input) result rest := by
  cases piece with
  | plain character hbrace hends =>
      exact reads_quotedCharacter _ quote character hplain hbrace steps draft result input rest h
  | comment body hbody =>
      have hgroup : Reads (readBraces (readInline compile depth) draft)
          ('{' :: ('*' :: body ++ '}' :: input)) draft input :=
        reads_readBraces _ ('*' :: body) input draft (by simpa using hbody) ⟨'*', rfl, by decide⟩
      rw [Piece.text_comment_append]
      exact reads_quotedBraces _ quote hquote steps draft _ result _ input rest hgroup h
  | braces expansion =>
      have hexpansion := expansion.reads depth (Nat.le_of_succ_le_succ hdepth) draft input
      exact reads_quotedBraces _ quote hquote steps draft _ result _ input rest hexpansion h

-- In quotes every piece is read into the draft at once.
theorem reads_quotedPieces (pieces : List (Piece ω compile))
    (hplain : ∀ piece ∈ pieces, piece.Avoids quote)
    (hdepth : (piecesText pieces).length ≤ depth + 1) (steps : Nat)
    (hsteps : pieces.length ≤ steps) (draft : Draft ω) (rest : List Char) :
    Reads (readQuotedBody (readInline compile depth) quote steps draft)
      (piecesText pieces ++ quote :: rest) (pieces.foldl Piece.addTo draft) (quote :: rest) := by
  apply reads_quotedElements _ Piece.text Piece.addTo quote pieces ?_ steps hsteps
  intro piece hpiece steps draft result input rest h
  have hlength := length_text_le Piece.text pieces piece hpiece
  exact reads_quotedPiece hquote depth piece (hplain piece hpiece) (Nat.le_trans hlength hdepth)
    steps draft result input rest h

end Quoted

section Bare

-- A step of reading without quotes, from the draft and the spaces held back.
def Piece.step (state : Draft ω × List Char) : Piece ω compile → Draft ω × List Char
  | .plain character _ _ =>
      if isSpace character then (state.1, state.2 ++ [character])
      else (state.1.add (state.2 ++ [character]), [])
  | .comment _ _ => state
  | .braces expansion => (expansion.addTo (state.1.add state.2), [])

theorem reads_skipComment (body rest : List Char) (hbody : '}' ∉ body) :
    Reads skipComment ('{' :: '*' :: (body ++ '}' :: rest)) () rest := by
  have hrun := takeWhile_closed body rest hbody
  have hextent : commentExtent ('{' :: '*' :: (body ++ '}' :: rest)) = (body.length + 3, true) := by
    simp [commentExtent, hrun]
  refine reads_bind (reads_remaining _) ?_
  rw [hextent]
  have hskip := reads_skip (body.length + 3) ('{' :: '*' :: (body ++ '}' :: rest))
  have hdrop : ('{' :: '*' :: (body ++ '}' :: rest)).drop (body.length + 3) = rest := by
    simp
  rw [hdrop] at hskip
  exact reads_bind hskip (reads_pure _ _)

theorem reads_barePiece (depth : Nat) (piece : Piece ω compile)
    (hdepth : piece.text.length ≤ depth + 1) (steps : Nat) (state : Draft ω × List Char)
    (result : Draft ω) (input rest : List Char)
    (h : Reads (readBareBody (readInline compile depth) steps (piece.step state).1
      (piece.step state).2) input result rest) :
    Reads (readBareBody (readInline compile depth) (steps + 1) state.1 state.2)
      (piece.text ++ input) result rest := by
  obtain ⟨draft, spaces⟩ := state
  cases piece with
  | plain character hbrace hends =>
      intro position
      rw [Piece.text, List.cons_append, List.nil_append,
        readBareBody_character _ _ _ _ _ _ _ hbrace, hends]
      cases hspace : isSpace character with
      | false =>
          simp only [Piece.step, hspace] at h
          exact reads_bind (reads_skip 1 _) h position
      | true =>
          simp only [Piece.step, hspace] at h
          exact reads_bind (reads_skip 1 _) h position
  | comment body hbody =>
      rw [Piece.text_comment_append]
      exact reads_bind (reads_remaining _) (reads_bind (reads_skipComment body input hbody) h)
  | braces expansion =>
      intro position
      have hcomment : ∀ more, expansion.inside ++ input ≠ '*' :: more := by
        intro more hstar
        obtain ⟨shorter, hshorter, -⟩ := exists_cons_of_append hstar expansion.inside_ne_nil
        exact expansion.hcomment (congrArg List.head? hshorter)
      rw [Piece.text, Expansion.text, List.cons_append,
        readBareBody_brace _ _ _ _ _ _ hcomment]
      exact reads_bind (expansion.reads depth (Nat.le_of_succ_le_succ hdepth) _ input) h position

theorem reads_barePieces (depth : Nat) (pieces : List (Piece ω compile))
    (hdepth : (piecesText pieces).length ≤ depth + 1) (steps : Nat)
    (hsteps : pieces.length ≤ steps) (state : Draft ω × List Char) (tail : List Char)
    (htail : ∀ character ∈ tail.head?, endsBareText character = true) :
    Reads (readBareBody (readInline compile depth) steps state.1 state.2)
      (piecesText pieces ++ tail) (pieces.foldl Piece.step state).1 tail := by
  induction pieces generalizing steps state with
  | nil =>
      cases steps with
      | zero => exact reads_pure _ _
      | succ steps =>
          cases tail with
          | nil => exact reads_bind (reads_remaining _) (reads_pure _ _)
          | cons character tail =>
              intro position
              have hends := htail character rfl
              have hbrace : character ≠ '{' := by
                rintro rfl
                exact nomatch hends
              refine ⟨position, ?_⟩
              rw [piecesText, List.flatMap_nil, List.nil_append,
                readBareBody_character _ _ _ _ _ _ _ hbrace, hends]
              rfl
  | cons piece pieces ih =>
      rw [piecesText_cons, List.length_append] at hdepth
      obtain ⟨less, rfl⟩ := Nat.exists_eq_add_of_le' (Nat.le_trans (Nat.succ_pos _) hsteps)
      rw [piecesText_cons, List.append_assoc]
      exact reads_barePiece depth piece (by omega) less state _ _ _
        (ih (by omega) less (Nat.le_of_succ_le_succ hsteps) (piece.step state))

-- With the spaces held back, the draft is the one that quotes make.
theorem add_step (piece : Piece ω compile) (state : Draft ω × List Char) :
    (piece.step state).1.add (piece.step state).2 = piece.addTo (state.1.add state.2) := by
  cases piece with
  | plain character hbrace hends =>
      rw [Piece.step, Piece.addTo, add_add]
      split <;> simp
  | comment body hbody => rfl
  | braces expansion => exact add_nil _

theorem add_foldl_step (pieces : List (Piece ω compile)) (state : Draft ω × List Char) :
    (pieces.foldl Piece.step state).1.add (pieces.foldl Piece.step state).2 =
      pieces.foldl Piece.addTo (state.1.add state.2) := by
  induction pieces generalizing state with
  | nil => rfl
  | cons piece pieces ih => rw [List.foldl_cons, ih, add_step, List.foldl_cons]

theorem step_of_blank (piece : Piece ω compile) (state : Draft ω × List Char)
    (h : piece.isBlank = true) : (piece.step state).1 = state.1 := by
  cases piece with
  | plain character hbrace hends =>
      have hspace : isSpace character = true := h
      rw [Piece.step, if_pos hspace]
  | comment body hbody => rfl
  | braces expansion => exact nomatch h

theorem step_of_solid (piece : Piece ω compile) (state : Draft ω × List Char)
    (h : ¬ piece.isBlank = true) : (piece.step state).2 = [] := by
  cases piece with
  | plain character hbrace hends =>
      have hspace : ¬ isSpace character = true := h
      rw [Piece.step, if_neg hspace]
  | comment body hbody => exact absurd rfl h
  | braces expansion => rfl

-- Spaces that nothing but comments follows are held back to the end.
theorem foldl_step_eq (pieces : List (Piece ω compile)) :
    (pieces.foldl Piece.step (Draft.empty, [])).1 =
      (trimmed pieces).foldl Piece.addTo Draft.empty := by
  induction pieces using List.reverseRecOn with
  | nil => rfl
  | append_singleton pieces piece ih =>
      rw [List.foldl_append, List.foldl_cons, List.foldl_nil, trimmed]
      by_cases hblank : piece.isBlank = true
      · rw [step_of_blank piece _ hblank, ih, List.rdropWhile_concat_pos _ _ _ hblank, trimmed]
      · have hadd := add_foldl_step (pieces ++ [piece]) ((Draft.empty : Draft ω), [])
        rw [List.foldl_append, List.foldl_cons, List.foldl_nil, step_of_solid piece _ hblank,
          add_nil, add_nil] at hadd
        rw [List.rdropWhile_concat_neg _ _ _ hblank, hadd]

end Bare

theorem endsBareText_eq_true (character : Char) (h : endsBareText character = true) :
    character = '\n' ∨ character = '|' ∨ character = '~' ∨ character = '}' := by
  simpa [endsBareText, or_assoc] using h

section Texts

variable (pieces : List (Piece ω compile)) (depth : Nat)
  (hdepth : (piecesText pieces).length ≤ depth + 1) (tail : List Char)
  (htail : ∀ character ∈ tail.head?, endsBareText character = true)

include hdepth htail

theorem reads_readBare :
    Reads (readBare (readInline compile depth)) (piecesText pieces ++ tail)
      (piecesChoice (trimmed pieces)) tail := by
  have hsteps := length_le_piecesText pieces tail
  have hbody := reads_barePieces depth pieces hdepth _ hsteps (Draft.empty, []) tail htail
  rw [foldl_step_eq] at hbody
  exact reads_bind (reads_remaining _) (reads_bind hbody (reads_pure _ _))

-- No weight is read after the closing quote, and nothing else either.
theorem reads_readQuoted (quote : Char) (hquote : quote ≠ '{')
    (hplain : ∀ piece ∈ pieces, piece.Avoids quote) :
    Reads (readQuoted (readInline compile depth) quote)
      (quote :: (piecesText pieces ++ quote :: tail)) (piecesChoice pieces) tail := by
  have hsteps := length_le_piecesText pieces (quote :: tail)
  have hbody := reads_quotedPieces hquote depth pieces hplain hdepth _ hsteps Draft.empty tail
  have hsolid : Solid false tail := by
    intro character hc
    rcases endsBareText_eq_true character (htail character hc) with rfl | rfl | rfl | rfl <;> decide
  have hended : Ended tail := by
    intro character hc
    rcases endsBareText_eq_true character (htail character hc) with rfl | rfl | rfl | rfl <;> decide
  have hweight : ({ piecesChoice pieces with fixedWeight := none } : Choice ω) =
      piecesChoice pieces := by
    have hnone := fixedWeight_piecesChoice pieces
    rcases hchoice : piecesChoice pieces with ⟨parts, product, fixedWeight, combinations⟩
    rw [hchoice] at hnone
    obtain rfl : fixedWeight = none := hnone
    rfl
  refine reads_bind (reads_skip 1 _) (reads_bind (reads_remaining _) (reads_bind hbody ?_))
  refine reads_bind (reads_remaining _) ?_
  simp only [List.isEmpty_cons]
  refine reads_bind (reads_skip 1 _) (reads_bind (reads_skipBlanks_nil false tail hsolid) ?_)
  refine reads_bind (reads_readWeight_none tail hended) ?_
  rw [← piecesChoice, hweight]
  exact reads_pure _ _

end Texts

theorem piecesText_trimmed_length_le (pieces : List (Piece ω compile)) :
    (piecesText (trimmed pieces)).length ≤ (piecesText pieces).length := by
  obtain ⟨blanks, hblanks⟩ := List.rdropWhile_prefix Piece.isBlank pieces
  conv_rhs => rw [← hblanks, piecesText_append, List.length_append]
  exact Nat.le_add_right _ _

section Choices

variable (inner : Reader (Rule ω)) (input : List Char) (position : Position)

theorem readChoice_of_quote (quote : Char) (h : isQuote quote = true) :
    readChoice inner ⟨quote :: input, position⟩ =
      readQuoted inner quote ⟨quote :: input, position⟩ := by
  have hquote : quote = '\"' ∨ quote = '\'' ∨ quote = '\x60' := by
    simpa [isQuote, or_assoc] using h
  rcases hquote with rfl | rfl | rfl <;> rfl

-- Pieces that are read as a text without quotes wherever a choice is expected.
def OpensBare (pieces : List (Piece ω compile)) : Prop :=
  ∃ character ∈ (piecesText pieces).head?, isSpace character = false ∧ isQuote character = false

theorem readChoice_of_opensBare (pieces : List (Piece ω compile)) (h : OpensBare pieces) :
    readChoice inner ⟨piecesText pieces ++ input, position⟩ =
      readBare inner ⟨piecesText pieces ++ input, position⟩ := by
  obtain ⟨first, hfirst, hspace, hquote⟩ := h
  have hends : endsBareText first = false := by
    cases pieces with
    | nil => exact nomatch hfirst
    | cons piece pieces =>
        cases piece with
        | plain character hbrace hends =>
            cases hfirst
            exact hends
        | comment body hbody =>
            cases hfirst
            decide
        | braces expansion =>
            cases hfirst
            decide
  obtain ⟨more, hmore⟩ := List.head?_eq_some_iff.mp hfirst
  rw [hmore]
  refine (bind_of_ok (rfl : remaining _ = .ok (first :: (more ++ input), _))).trans ?_
  simp only [hspace, hends, hquote, Bool.or_self]
  rfl

end Choices

-- A text without quotes is read as the choice that quotes around it make, once
-- the spaces and comments at its end are left out. Both readings stop at what
-- ends a text without quotes. The depth is for the rules in braces, and it is
-- never less than what is left to be read.
theorem bare_reads_as_quoted (pieces : List (Piece ω compile)) (quote : Char)
    (hquote : isQuote quote = true) (hplain : ∀ piece ∈ pieces, piece.Avoids quote)
    (tail : List Char) (htail : ∀ character ∈ tail.head?, endsBareText character = true)
    (depth : Nat) (hdepth : (piecesText pieces).length ≤ depth + 1) (position : Position) :
    readBare (readInline compile depth) ⟨piecesText pieces ++ tail, position⟩ =
        .ok (piecesChoice (trimmed pieces), ⟨tail, position.after (piecesText pieces)⟩) ∧
      readQuoted (readInline compile depth) quote
          ⟨quote :: (piecesText (trimmed pieces) ++ quote :: tail), position⟩ =
        .ok (piecesChoice (trimmed pieces),
          ⟨tail, position.after (quote :: (piecesText (trimmed pieces) ++ [quote]))⟩) ∧
      readChoice (readInline compile depth : Reader (Rule ω))
          ⟨quote :: (piecesText (trimmed pieces) ++ quote :: tail), position⟩ =
        readQuoted (readInline compile depth) quote
          ⟨quote :: (piecesText (trimmed pieces) ++ quote :: tail), position⟩ ∧
      (OpensBare pieces →
        readChoice (readInline compile depth : Reader (Rule ω))
            ⟨piecesText pieces ++ tail, position⟩ =
          readBare (readInline compile depth) ⟨piecesText pieces ++ tail, position⟩) := by
  have hinner : Advances (readInline compile depth : Reader (Rule ω)) :=
    advances_readInline compile depth (advances_readRule compile depth)
  have hbrace : quote ≠ '{' := by
    rintro rfl
    exact nomatch hquote
  have hkept : ∀ piece ∈ trimmed pieces, piece.Avoids quote := fun piece hpiece =>
    hplain piece ((List.rdropWhile_prefix _ _).subset hpiece)
  have hshort := Nat.le_trans (piecesText_trimmed_length_le pieces) hdepth
  have hbare := reads_readBare pieces depth hdepth tail htail
  have hquoted := reads_readQuoted (trimmed pieces) depth hshort tail htail quote hbrace hkept
  have htext : quote :: (piecesText (trimmed pieces) ++ quote :: tail) =
      quote :: (piecesText (trimmed pieces) ++ [quote]) ++ tail := by
    simp
  refine ⟨(advances_readBare hinner).eq_of_reads hbare position, ?_,
    readChoice_of_quote _ _ position quote hquote,
    readChoice_of_opensBare _ tail position pieces⟩
  rw [htext] at hquoted ⊢
  exact (advances_readQuoted hinner quote).eq_of_reads hquoted position

-- A letter, a rule, a comment and a brace, with spaces in between and around a
-- comment at the end.
def spacedPieces : List (Piece Rat refused) :=
  let space : Piece Rat refused := .plain ' ' (by decide) (by decide)
  let rule : Expansion Rat refused :=
    ⟨['=', 'b', '|', '\"', 'c', '\"', ' ', '2', '}'], by decide, ⟨_, _, rfl⟩⟩
  let brace : Expansion Rat refused := ⟨['(', '}'], by decide, ⟨_, _, rfl⟩⟩
  [.plain 'a' (by decide) (by decide), space, .braces rule, space, .comment [' ', '\''] (by decide),
    space, .braces brace, space, .comment [] (by decide), space]

theorem spacedPieces_read_alike :
    String.ofList (piecesText spacedPieces) =
        "a \x7b=b|\"c\" 2\x7d \x7b* '\x7d \x7b(\x7d \x7b*\x7d " ∧
      String.ofList (piecesText (trimmed spacedPieces)) =
        "a \x7b=b|\"c\" 2\x7d \x7b* '\x7d \x7b(\x7d" ∧
      readChoice (readInline refused 30 : Reader (Rule Rat))
          ⟨piecesText spacedPieces ++ ['|', 'z'], Position.start⟩ =
        .ok (piecesChoice (trimmed spacedPieces), ⟨['|', 'z'], ⟨1, 28⟩⟩) ∧
      readChoice (readInline refused 30 : Reader (Rule Rat))
          ⟨'\'' :: (piecesText (trimmed spacedPieces) ++ ['\'', '|', 'z']), Position.start⟩ =
        .ok (piecesChoice (trimmed spacedPieces), ⟨['|', 'z'], ⟨1, 25⟩⟩) := by
  have hplain : ∀ piece ∈ spacedPieces, piece.Avoids '\'' := by
    simp [spacedPieces, Piece.Avoids]
  have htail : ∀ character ∈ ['|', 'z'].head?, endsBareText character = true := by
    rintro _ ⟨⟩
    rfl
  obtain ⟨hbare, hquoted, hquote, hopens⟩ := bare_reads_as_quoted spacedPieces '\'' (by decide)
    hplain ['|', 'z'] htail 30 (by decide) Position.start
  refine ⟨by decide +kernel, by decide +kernel, ?_, hquote.trans hquoted⟩
  exact (hopens ⟨'a', rfl, by decide⟩).trans hbare

end PhraseGrammar.Reading
