import PhraseGrammar.Proofs.Reading.BareTexts
import PhraseGrammar.Proofs.Rule.WellFormed

namespace PhraseGrammar.Reading

variable {ω : Type}

def groupText (body : List Char) : List Char := '{' :: (body ++ ['}'])

-- What a group stands for: a brace for a parenthesis, nothing for a comment, a
-- reference for a name, and any other text for itself.
def contribution (body : List Char) : Addition ω :=
  if body = ['('] then .characters ['{']
  else if body = [')'] then .characters ['}']
  else if body.head? = some '*' then .characters []
  else if body ≠ [] ∧ body.all isNameCharacter then .part (.reference (String.ofList body) none)
  else .characters body

theorem groupText_append (body rest : List Char) :
    groupText body ++ rest = '{' :: (body ++ '}' :: rest) := by
  simp [groupText]

theorem addGroup_eq (draft : Draft ω) (body : List Char) (hopen : body ≠ ['('])
    (hclose : body ≠ [')']) : draft.addGroup body = draft.include (contribution body) := by
  rw [contribution, if_neg hopen, if_neg hclose]
  unfold Draft.addGroup
  split
  · exact (add_nil draft).symm
  next hcomment =>
    have hhead : body.head? ≠ some '*' := by
      intro hstar
      obtain ⟨more, hmore⟩ := List.head?_eq_some_iff.mp hstar
      exact hcomment more hmore
    have hname : (!body.isEmpty && body.all isNameCharacter) = true ↔
        body ≠ [] ∧ body.all isNameCharacter := by
      simp
    rw [if_neg hhead]
    simp only [hname]
    split <;> rfl

-- A group is read up to its closing brace, whatever else braces may hold.
theorem reads_group (inner : Reader (Rule ω)) (draft : Draft ω) (body rest : List Char)
    (h : IsGroup body) :
    Reads (readBraces inner draft) (groupText body ++ rest) (draft.include (contribution body))
      rest := by
  rw [groupText_append]
  by_cases hopen : body = ['(']
  · subst hopen
    exact reads_bind (reads_remaining _) (reads_bind (reads_skip 3 _) (reads_pure _ _))
  by_cases hclose : body = [')']
  · subst hclose
    exact reads_bind (reads_remaining _) (reads_bind (reads_skip 3 _) (reads_pure _ _))
  rw [← addGroup_eq draft body hopen hclose]
  exact reads_addGroup inner body rest draft h hopen hclose

section States

variable (inner : Reader (Rule ω))

-- The body of a text in quotes, and that of one without, from a state on that
-- reading may have come to.
def quotedFrom (quote : Char) (draft : Draft ω) : Reader (Draft ω) := do
  readQuotedBody inner quote (← remaining).length draft

def bareFrom (draft : Draft ω) (spaces : List Char) : Reader (Draft ω) := do
  readBareBody inner (← remaining).length draft spaces

theorem readQuotedBody_brace (quote : Char) (hquote : quote ≠ '{') (steps : Nat) (draft : Draft ω)
    (rest : List Char) (position : Position) :
    readQuotedBody inner quote (steps + 1) draft ⟨'{' :: rest, position⟩ =
      (readBraces inner draft >>= readQuotedBody inner quote steps) ⟨'{' :: rest, position⟩ := by
  refine (bind_of_ok (rfl : remaining _ = .ok ('{' :: rest, _))).trans ?_
  simp only [hquote.symm, if_false, if_true]

theorem readBareBody_comment (steps : Nat) (draft : Draft ω) (spaces rest : List Char)
    (position : Position) :
    readBareBody inner (steps + 1) draft spaces ⟨'{' :: '*' :: rest, position⟩ =
      (skipComment >>= fun _ => readBareBody inner steps draft spaces)
        ⟨'{' :: '*' :: rest, position⟩ :=
  bind_of_ok (rfl : remaining _ = .ok ('{' :: '*' :: rest, _))

variable (hinner : Advances inner)

include hinner

-- More steps than there are characters change nothing.
theorem readQuotedBody_eq_quotedFrom (quote : Char) (steps : Nat) (draft : Draft ω)
    (cursor : Cursor) (h : cursor.rest.length ≤ steps) :
    readQuotedBody inner quote steps draft cursor = quotedFrom inner quote draft cursor :=
  agree_readQuotedBody hinner (agree_refl _ inner) quote _ steps cursor.rest.length draft
    (Nat.le_succ _) h (Nat.le_refl _) cursor (Nat.le_refl _)

theorem readBareBody_eq_bareFrom (steps : Nat) (draft : Draft ω) (spaces : List Char)
    (cursor : Cursor) (h : cursor.rest.length ≤ steps) :
    readBareBody inner steps draft spaces cursor = bareFrom inner draft spaces cursor :=
  agree_readBareBody hinner (agree_refl _ inner) _ steps cursor.rest.length draft spaces
    (Nat.le_succ _) h (Nat.le_refl _) cursor (Nat.le_refl _)

variable (body rest : List Char) (h : IsGroup body) (position : Position)

include h

theorem readBraces_group (draft : Draft ω) :
    readBraces inner draft ⟨groupText body ++ rest, position⟩ =
      .ok (draft.include (contribution body), ⟨rest, position.after (groupText body)⟩) :=
  (advances_readBraces hinner draft).eq_of_reads (reads_group inner draft body rest h) position

theorem quotedFrom_group (quote : Char) (hquote : quote ≠ '{') (draft : Draft ω) :
    quotedFrom inner quote draft ⟨groupText body ++ rest, position⟩ =
      quotedFrom inner quote (draft.include (contribution body))
        ⟨rest, position.after (groupText body)⟩ := by
  have hread := readBraces_group inner hinner body rest h position draft
  rw [groupText_append] at hread ⊢
  have hlength : rest.length ≤ (body ++ '}' :: rest).length := by
    rw [List.length_append, List.length_cons]
    omega
  calc quotedFrom inner quote draft ⟨'{' :: (body ++ '}' :: rest), position⟩
      = (readBraces inner draft >>= readQuotedBody inner quote (body ++ '}' :: rest).length)
          ⟨'{' :: (body ++ '}' :: rest), position⟩ :=
        readQuotedBody_brace inner quote hquote _ draft _ position
    _ = readQuotedBody inner quote _ _ ⟨rest, position.after (groupText body)⟩ := bind_of_ok hread
    _ = _ := readQuotedBody_eq_quotedFrom inner hinner quote _ _ _ hlength

-- A comment leaves the spaces before it held back, and any other group does not.
theorem bareFrom_group (draft : Draft ω) (spaces : List Char) :
    bareFrom inner draft spaces ⟨groupText body ++ rest, position⟩ =
      if body.head? = some '*' then
        bareFrom inner draft spaces ⟨rest, position.after (groupText body)⟩
      else
        bareFrom inner ((draft.add spaces).include (contribution body)) []
          ⟨rest, position.after (groupText body)⟩ := by
  have hread := readBraces_group inner hinner body rest h position (draft.add spaces)
  have hlength : rest.length ≤ (body ++ '}' :: rest).length := by
    rw [List.length_append, List.length_cons]
    omega
  split
  next hcomment =>
    obtain ⟨more, rfl⟩ := List.head?_eq_some_iff.mp hcomment
    have hclosed : '}' ∉ more := fun hmem => h.closed (List.mem_cons_of_mem _ hmem)
    have hreads := reads_skipComment more rest hclosed
    rw [← List.cons_append, ← groupText_append] at hreads
    have hskip := advances_skipComment.eq_of_reads hreads position
    rw [groupText_append] at hskip ⊢
    calc bareFrom inner draft spaces ⟨'{' :: '*' :: (more ++ '}' :: rest), position⟩
        = (skipComment >>= fun _ => readBareBody inner _ draft spaces)
            ⟨'{' :: '*' :: (more ++ '}' :: rest), position⟩ :=
          readBareBody_comment inner _ draft spaces _ position
      _ = readBareBody inner _ draft spaces ⟨rest, _⟩ := bind_of_ok hskip
      _ = _ := readBareBody_eq_bareFrom inner hinner _ _ _ _ hlength
  next hcomment =>
    have hplain (more : List Char) : body ++ '}' :: rest ≠ '*' :: more := by
      intro htext
      obtain ⟨others, rfl, _⟩ := exists_cons_of_body body rest more _ (by decide) htext
      exact hcomment rfl
    rw [groupText_append] at hread ⊢
    calc bareFrom inner draft spaces ⟨'{' :: (body ++ '}' :: rest), position⟩
        = (readBraces inner (draft.add spaces) >>= fun next => readBareBody inner _ next [])
            ⟨'{' :: (body ++ '}' :: rest), position⟩ :=
          readBareBody_brace inner _ draft spaces _ position hplain
      _ = readBareBody inner _ _ [] ⟨rest, position.after (groupText body)⟩ := bind_of_ok hread
      _ = _ := readBareBody_eq_bareFrom inner hinner _ _ _ _ hlength

end States

section Joins

-- A part without the joints of its characters, if it is a literal.
def atomsOf : Part ω → List (Char ⊕ Part ω)
  | .literal text => text.toList.map .inl
  | .reference name link => [.inr (.reference name link)]
  | .inline rule => [.inr (.inline rule)]

def Addition.atoms : Addition ω → List (Char ⊕ Part ω)
  | .characters text => text.map .inl
  | .part added => atomsOf added

def Addition.IsLiteral : Addition ω → Prop
  | .characters _ => False
  | .part added => added.isLiteral

-- The parts are made of the characters and other parts, in order, with the
-- characters that follow one another in one literal.
structure Joins (parts : List (Part ω)) (atoms : List (Char ⊕ Part ω)) : Prop where
  atoms_eq : parts.flatMap atomsOf = atoms
  literal_ne : Part.literal "" ∉ parts
  apart : Apart parts

-- A draft whose literal is still held back.
structure Draft.Joins (draft : Draft ω) (atoms : List (Char ⊕ Part ω)) : Prop where
  atoms_eq : draft.choice.parts.flatMap atomsOf ++ draft.literal.toList.map .inl = atoms
  literal_ne : Part.literal "" ∉ draft.choice.parts
  apart : Apart draft.choice.parts
  last : ∀ part ∈ draft.choice.parts.getLast?, part.isLiteral = false

variable {draft : Draft ω} {atoms : List (Char ⊕ Part ω)}

theorem Draft.Joins.finish (h : draft.Joins atoms) : Reading.Joins draft.finish.parts atoms := by
  obtain ⟨hatoms, hliteral, hapart, hlast⟩ := h
  rw [Draft.finish, Choice.pushLiteral]
  split
  next hempty =>
    rw [hempty] at hatoms
    exact ⟨by simpa using hatoms, hliteral, hapart⟩
  next hsome =>
    refine ⟨?_, ?_, hapart.concat _ _ fun _ => hlast⟩
    · rw [← hatoms, Choice.push, List.flatMap_append, List.flatMap_singleton]
      rfl
    · rw [Choice.push, List.mem_append, List.mem_singleton, Part.literal.injEq, eq_comm (a := "")]
      exact not_or.mpr ⟨hliteral, hsome⟩

theorem Draft.Joins.push (h : draft.Joins atoms) (part : Part ω) (hpart : part.isLiteral = false) :
    (draft.push part).Joins (atoms ++ atomsOf part) := by
  obtain ⟨hatoms, hliteral, hapart⟩ := h.finish
  constructor
  · rw [← hatoms]
    simp
  · intro hmem
    rcases List.mem_append.mp hmem with hold | hadded
    · exact hliteral hold
    · rw [← List.mem_singleton.mp hadded] at hpart
      exact Bool.noConfusion hpart
  · exact hapart.concat _ _ fun hother => by simp [hpart] at hother
  · intro last hlast
    obtain rfl : part = last := by simpa using hlast
    exact hpart

theorem Draft.Joins.include (h : draft.Joins atoms) (addition : Addition ω)
    (hadded : ¬ addition.IsLiteral) : (draft.include addition).Joins (atoms ++ addition.atoms) := by
  cases addition with
  | characters text =>
      refine ⟨?_, h.literal_ne, h.apart, h.last⟩
      rw [← h.atoms_eq]
      simp [Draft.include, Addition.atoms]
  | part part => exact h.push part (by simpa [Addition.IsLiteral] using hadded)

theorem isLiteral_contribution (body : List Char) :
    ¬ (contribution body : Addition ω).IsLiteral := by
  unfold contribution
  split
  · exact id
  split
  · exact id
  split
  · exact id
  split
  · exact Bool.false_ne_true
  · exact id

end Joins

variable (ω) [Weight ω] (compile : Compiler)

-- What texts are made of, with quotes and without: plain characters, groups,
-- and rules in braces.
inductive Item where
  | plain (character : Char) (hbrace : character ≠ '{')
  | group (body : List Char) (hgroup : IsGroup body)
  | rule (expansion : Expansion ω compile) (rule : Rule ω)
    (hrule : ∀ draft, expansion.addTo draft = draft.push (.inline rule))

variable {ω compile}

namespace Item

def text : Item ω compile → List Char
  | .plain character _ => [character]
  | .group body _ => groupText body
  | .rule expansion _ _ => expansion.text

def addition : Item ω compile → Addition ω
  | .plain character _ => .characters [character]
  | .group body _ => contribution body
  | .rule _ inner _ => .part (.inline inner)

def isBlank : Item ω compile → Bool
  | .plain character _ => isSpace character
  | .group body _ => body.head? == some '*'
  | .rule _ _ _ => false

def SuitsQuotes (quote : Char) : Item ω compile → Prop
  | .plain character _ => character ≠ quote
  | _ => True

def SuitsBare : Item ω compile → Prop
  | .plain character _ => endsBareText character = false
  | _ => True

theorem isLiteral_addition (item : Item ω compile) : ¬ item.addition.IsLiteral := by
  cases item with
  | plain character hbrace => exact id
  | group body hgroup => exact isLiteral_contribution body
  | rule expansion rule hrule => exact Bool.false_ne_true

theorem length_text_pos (item : Item ω compile) : 0 < item.text.length := by
  cases item <;> exact Nat.succ_pos _

end Item

def itemsText (items : List (Item ω compile)) : List Char := items.flatMap Item.text

def itemsAtoms (items : List (Item ω compile)) : List (Char ⊕ Part ω) :=
  items.flatMap fun item => item.addition.atoms

def Draft.includeAll (draft : Draft ω) (items : List (Item ω compile)) : Draft ω :=
  items.foldl (fun draft item => draft.include item.addition) draft

def itemsChoice (items : List (Item ω compile)) : Choice ω :=
  (Draft.empty.includeAll items).finish

-- All but the spaces and comments that come last.
def trimmedItems (items : List (Item ω compile)) : List (Item ω compile) :=
  items.rdropWhile Item.isBlank

theorem includeAll_joins (items : List (Item ω compile)) (draft : Draft ω)
    (atoms : List (Char ⊕ Part ω)) (h : draft.Joins atoms) :
    (draft.includeAll items).Joins (atoms ++ itemsAtoms items) := by
  induction items generalizing draft atoms with
  | nil => simpa [itemsAtoms, Draft.includeAll] using h
  | cons item items ih =>
      have hitem := ih _ _ (h.include item.addition item.isLiteral_addition)
      rw [List.append_assoc] at hitem
      exact hitem

theorem joins_itemsChoice (items : List (Item ω compile)) :
    Joins (itemsChoice items).parts (itemsAtoms items) :=
  (includeAll_joins items Draft.empty []
    ⟨rfl, List.not_mem_nil, List.isChain_nil, nofun⟩).finish

section Quoted

variable {quote : Char} (hquote : quote ≠ '{') (depth : Nat)

include hquote

theorem reads_quotedItem (item : Item ω compile) (hsuits : item.SuitsQuotes quote)
    (hdepth : item.text.length ≤ depth + 1) (steps : Nat) (draft result : Draft ω)
    (input rest : List Char)
    (h : Reads (readQuotedBody (readInline compile depth) quote steps
      (draft.include item.addition)) input result rest) :
    Reads (readQuotedBody (readInline compile depth) quote (steps + 1) draft) (item.text ++ input)
      result rest := by
  cases item with
  | plain character hbrace =>
      exact reads_quotedCharacter _ quote character hsuits hbrace steps draft result input rest h
  | group body hgroup =>
      have hbraces := reads_group (readInline compile depth) draft body input hgroup
      rw [groupText_append] at hbraces
      rw [Item.text, groupText_append]
      exact reads_quotedBraces _ quote hquote steps draft _ result _ input rest hbraces h
  | rule expansion rule hrule =>
      have hbraces := expansion.reads depth (Nat.le_of_succ_le_succ hdepth) draft input
      rw [hrule] at hbraces
      exact reads_quotedBraces _ quote hquote steps draft _ result _ input rest hbraces h

theorem reads_quotedItems (items : List (Item ω compile))
    (hsuits : ∀ item ∈ items, item.SuitsQuotes quote)
    (hdepth : (itemsText items).length ≤ depth + 1) (steps : Nat) (hsteps : items.length ≤ steps)
    (draft : Draft ω) (rest : List Char) :
    Reads (readQuotedBody (readInline compile depth) quote steps draft)
      (itemsText items ++ quote :: rest) (draft.includeAll items) (quote :: rest) := by
  apply reads_quotedElements _ Item.text (fun draft item => draft.include item.addition) quote
    items ?_ steps hsteps
  intro item hitem steps draft result input rest h
  have hlength := length_text_le Item.text items item hitem
  exact reads_quotedItem hquote depth item (hsuits item hitem) (Nat.le_trans hlength hdepth) steps
    draft result input rest h

end Quoted

theorem length_le_itemsText (items : List (Item ω compile)) (rest : List Char) :
    items.length ≤ (itemsText items ++ rest).length :=
  length_le_flatMap Item.text items Item.length_text_pos rest

-- What comes after the closing quote.
def readOwnWeight (choice : Choice ω) : Reader (Choice ω) := do
  skipBlanks false
  return { choice with fixedWeight := ← readWeight }

theorem readChoice_quotedItems (items : List (Item ω compile)) (depth : Nat)
    (hdepth : (itemsText items).length ≤ depth + 1) (quote : Char) (hquote : isQuote quote = true)
    (hsuits : ∀ item ∈ items, item.SuitsQuotes quote) (rest : List Char) (position : Position) :
    readChoice (readInline compile depth)
        ⟨quote :: (itemsText items ++ quote :: rest), position⟩ =
      readOwnWeight (itemsChoice items)
        ⟨rest, position.after (quote :: (itemsText items ++ [quote]))⟩ := by
  have hbrace : quote ≠ '{' := by
    rintro rfl
    exact nomatch hquote
  have hinner : Advances (readInline compile depth : Reader (Rule ω)) :=
    advances_readInline compile depth (advances_readRule compile depth)
  have hreads := reads_quotedItems hbrace depth items hsuits hdepth _
    (length_le_itemsText items (quote :: rest)) Draft.empty rest
  have hbody := (advances_readQuotedBody hinner quote _ _).eq_of_reads hreads (position.next quote)
  have hend : position.after (quote :: (itemsText items ++ [quote])) =
      ((position.next quote).after (itemsText items)).next quote :=
    Position.after_append (position.next quote) (itemsText items) [quote]
  rw [readChoice_of_quote _ _ position quote hquote, hend]
  refine (bind_of_ok (rfl : skip 1 _ = .ok ((), ⟨itemsText items ++ quote :: rest, _⟩))).trans ?_
  refine (bind_of_ok (rfl : remaining _ = .ok (itemsText items ++ quote :: rest, _))).trans ?_
  exact bind_of_ok hbody

section Bare

theorem Item.exists_piece (item : Item ω compile) (h : item.SuitsBare) :
    ∃ piece : Piece ω compile, piece.text = item.text ∧ piece.isBlank = item.isBlank ∧
      ∀ draft, piece.addTo draft = draft.include item.addition := by
  cases item with
  | plain character hbrace => exact ⟨.plain character hbrace h, rfl, rfl, fun _ => rfl⟩
  | rule expansion rule hrule => exact ⟨.braces expansion, rfl, rfl, hrule⟩
  | group body hgroup =>
      by_cases hcomment : body.head? = some '*'
      · obtain ⟨more, rfl⟩ := List.head?_eq_some_iff.mp hcomment
        have hclosed : '}' ∉ more := fun hmem => hgroup.closed (List.mem_cons_of_mem _ hmem)
        exact ⟨.comment more hclosed, rfl, rfl, fun draft => (add_nil draft).symm⟩
      · have hinner (depth : Nat) : Advances (readInline compile depth : Reader (Rule ω)) :=
          advances_readInline compile depth (advances_readRule compile depth)
        have hread (depth : Nat) (draft : Draft ω) :=
          readBraces_group _ (hinner depth) body [] hgroup Position.start draft
        simp only [List.append_nil] at hread
        have hhead : (body ++ ['}']).head? ≠ some '*' := by
          cases body with
          | nil => decide
          | cons first more => exact hcomment
        refine ⟨.braces ⟨body ++ ['}'], hhead, _, _, hread _ _⟩, rfl, ?_, fun draft => ?_⟩
        · simpa [Piece.isBlank, Item.isBlank] using hcomment
        · simp only [Piece.addTo, Expansion.addTo, Expansion.text]
          rw [show '{' :: (body ++ ['}']) = groupText body from rfl, hread]
          rfl

-- A text without quotes is made of pieces that come to the same.
theorem exists_pieces (items : List (Item ω compile)) (h : ∀ item ∈ items, item.SuitsBare) :
    ∃ pieces : List (Piece ω compile), piecesText pieces = itemsText items ∧
      pieces.foldl Piece.addTo Draft.empty = Draft.empty.includeAll items ∧
      (trimmed pieces).foldl Piece.addTo Draft.empty =
        Draft.empty.includeAll (trimmedItems items) := by
  induction items using List.reverseRecOn with
  | nil => exact ⟨[], rfl, rfl, rfl⟩
  | append_singleton items item ih =>
      obtain ⟨hitems, hitem⟩ := List.forall_mem_append.mp h
      obtain ⟨pieces, htext, hwhole, htrimmed⟩ := ih hitems
      obtain ⟨piece, hpiece, hblank, hadds⟩ := item.exists_piece (hitem item (by simp))
      have hboth : (pieces ++ [piece]).foldl Piece.addTo Draft.empty =
          Draft.empty.includeAll (items ++ [item]) := by
        rw [List.foldl_append, hwhole, Draft.includeAll, Draft.includeAll, List.foldl_append]
        exact hadds _
      refine ⟨pieces ++ [piece], ?_, hboth, ?_⟩
      · rw [piecesText_append, htext, itemsText, itemsText, List.flatMap_append, piecesText,
          List.flatMap_singleton, List.flatMap_singleton, hpiece]
      · rw [trimmed, trimmedItems]
        by_cases hends : item.isBlank = true
        · rw [List.rdropWhile_concat_pos _ _ _ (hblank.trans hends),
            List.rdropWhile_concat_pos _ _ _ hends]
          exact htrimmed
        · rw [List.rdropWhile_concat_neg _ _ _ (hblank ▸ hends),
            List.rdropWhile_concat_neg _ _ _ hends]
          exact hboth

theorem readChoice_bareItems (items : List (Item ω compile)) (depth : Nat)
    (hdepth : (itemsText items).length ≤ depth + 1) (hsuits : ∀ item ∈ items, item.SuitsBare)
    (hopens : ∃ character ∈ (itemsText items).head?,
      isSpace character = false ∧ isQuote character = false)
    (tail : List Char) (htail : ∀ character ∈ tail.head?, endsBareText character = true)
    (position : Position) :
    readChoice (readInline compile depth) ⟨itemsText items ++ tail, position⟩ =
      .ok (itemsChoice (trimmedItems items), ⟨tail, position.after (itemsText items)⟩) := by
  obtain ⟨pieces, htext, _, htrimmed⟩ := exists_pieces items hsuits
  have hinner : Advances (readInline compile depth : Reader (Rule ω)) :=
    advances_readInline compile depth (advances_readRule compile depth)
  rw [← htext] at hdepth hopens ⊢
  rw [readChoice_of_opensBare _ tail position pieces hopens, itemsChoice, ← htrimmed]
  exact (advances_readBare hinner).eq_of_reads (reads_readBare pieces depth hdepth tail htail)
    position

end Bare

variable (compile) in
-- Wherever a group stands in a text, with quotes or without, it is read up to
-- its closing brace, and what it stands for is made part of the text. A text
-- of plain characters, groups and rules comes to what these stand for, in
-- order, with the characters that follow one another in one literal. Without
-- quotes, the spaces and comments at the end are left out.
theorem groups_are_classified :
    (∀ (depth : Nat) (body rest : List Char) (position : Position), IsGroup body →
      (∀ (quote : Char) (draft : Draft ω), isQuote quote = true →
        quotedFrom (readInline compile depth) quote draft ⟨groupText body ++ rest, position⟩ =
          quotedFrom (readInline compile depth) quote (draft.include (contribution body))
            ⟨rest, position.after (groupText body)⟩) ∧
      ∀ (draft : Draft ω) (spaces : List Char),
        bareFrom (readInline compile depth) draft spaces ⟨groupText body ++ rest, position⟩ =
          if body.head? = some '*' then
            bareFrom (readInline compile depth) draft spaces
              ⟨rest, position.after (groupText body)⟩
          else
            bareFrom (readInline compile depth) ((draft.add spaces).include (contribution body)) []
              ⟨rest, position.after (groupText body)⟩) ∧
    ∀ (items : List (Item ω compile)) (depth : Nat) (rest : List Char) (position : Position),
      (itemsText items).length ≤ depth + 1 →
        Joins (itemsChoice items).parts (itemsAtoms items) ∧
        (∀ quote, isQuote quote = true → (∀ item ∈ items, item.SuitsQuotes quote) →
          readChoice (readInline compile depth)
              ⟨quote :: (itemsText items ++ quote :: rest), position⟩ =
            readOwnWeight (itemsChoice items)
              ⟨rest, position.after (quote :: (itemsText items ++ [quote]))⟩) ∧
        ((∀ item ∈ items, item.SuitsBare) →
          (∃ character ∈ (itemsText items).head?,
            isSpace character = false ∧ isQuote character = false) →
          (∀ character ∈ rest.head?, endsBareText character = true) →
            readChoice (readInline compile depth) ⟨itemsText items ++ rest, position⟩ =
              .ok (itemsChoice (trimmedItems items),
                ⟨rest, position.after (itemsText items)⟩)) := by
  constructor
  · intro depth body rest position h
    have hinner : Advances (readInline compile depth : Reader (Rule ω)) :=
      advances_readInline compile depth (advances_readRule compile depth)
    refine ⟨fun quote draft hquote => ?_, ?_⟩
    · have hbrace : quote ≠ '{' := by
        rintro rfl
        exact nomatch hquote
      exact quotedFrom_group _ hinner body rest h position quote hbrace draft
    · exact bareFrom_group _ hinner body rest h position
  · intro items depth rest position hdepth
    refine ⟨joins_itemsChoice items, fun quote hquote hsuits => ?_, fun hsuits hopens htail => ?_⟩
    · exact readChoice_quotedItems items depth hdepth quote hquote hsuits rest position
    · exact readChoice_bareItems items depth hdepth hsuits hopens rest htail position

-- A comment after a tab, a quote and a sign that ends a text without quotes,
-- a brace, a name, and a comment at the end.
def mixedItems : List (Item Rat refused) :=
  [.plain 'k' (by decide), .plain '\t' (by decide), .group ['*', ' ', 'x'] (by decide),
    .group ['\'', '|'] (by decide), .group ['('] (by decide), .group ['b', '.', 'c'] (by decide),
    .plain '\t' (by decide), .group ['*'] (by decide)]

theorem mixedItems_classified :
    String.ofList (itemsText mixedItems) =
        "k\t\x7b* x\x7d\x7b'|\x7d\x7b(\x7d\x7bb.c\x7d\t\x7b*\x7d" ∧
      (itemsChoice mixedItems).parts =
        [.literal "k\t'|\x7b", .reference "b.c" none, .literal "\t"] ∧
      (itemsChoice (trimmedItems mixedItems)).parts =
        [.literal "k\t'|\x7b", .reference "b.c" none] ∧
      readChoice (readInline refused 30 : Reader (Rule Rat))
          ⟨'\'' :: (itemsText mixedItems ++ ['\'', ' ', '2', '\n']), Position.start⟩ =
        readOwnWeight (itemsChoice mixedItems) ⟨[' ', '2', '\n'], ⟨1, 26⟩⟩ ∧
      readChoice (readInline refused 30 : Reader (Rule Rat))
          ⟨itemsText mixedItems ++ ['\n'], Position.start⟩ =
        .ok (itemsChoice (trimmedItems mixedItems), ⟨['\n'], ⟨1, 24⟩⟩) ∧
      quotedFrom (readInline refused 30) '\'' (Draft.empty : Draft Rat)
          ⟨groupText ['('] ++ ['\''], Position.start⟩ =
        quotedFrom (readInline refused 30) '\'' (Draft.empty.add ['{']) ⟨['\''], ⟨1, 4⟩⟩ := by
  have hitems := (groups_are_classified (ω := Rat) refused).2 mixedItems 30
  obtain ⟨_, hquoted, _⟩ := hitems [' ', '2', '\n'] Position.start (by decide)
  obtain ⟨_, _, hbare⟩ := hitems ['\n'] Position.start (by decide)
  obtain ⟨hgroup, _⟩ := (groups_are_classified (ω := Rat) refused).1 30 ['('] ['\'']
    Position.start (by decide)
  refine ⟨by decide +kernel, rfl, rfl, hquoted '\'' (by decide) ?_, hbare ?_ ?_ ?_,
    hgroup '\'' Draft.empty (by decide)⟩
  · simp [mixedItems, Item.SuitsQuotes]
  · simp [mixedItems, Item.SuitsBare, endsBareText]
  · exact ⟨'k', rfl, by decide⟩
  · rintro _ ⟨⟩
    rfl

end PhraseGrammar.Reading
