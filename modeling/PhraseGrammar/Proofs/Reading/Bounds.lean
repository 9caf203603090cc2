import PhraseGrammar.Proofs.Reading.Advances

namespace PhraseGrammar.Reading

variable {α β : Type}

theorem Advances.exists_forward {reader : Reader α} (h : Advances reader) {cursor left : Cursor}
    {value : α} (hread : reader cursor = .ok (value, left)) :
    ∃ count, cursor.forward count = left := by
  obtain ⟨text, position⟩ := cursor
  obtain ⟨count, ⟨other, hother⟩ | ⟨cause, hcause⟩⟩ := h text
  · rw [hother] at hread
    cases hread
    exact ⟨count, rfl⟩
  · rw [hcause] at hread
    exact nomatch hread

theorem Advances.length_le {reader : Reader α} (h : Advances reader) {cursor left : Cursor}
    {value : α} (hread : reader cursor = .ok (value, left)) :
    left.rest.length ≤ cursor.rest.length := by
  obtain ⟨count, rfl⟩ := h.exists_forward hread
  simp

theorem Advances.isSuffix {reader : Reader α} (h : Advances reader) {cursor left : Cursor}
    {value : α} (hread : reader cursor = .ok (value, left)) : left.rest <:+ cursor.rest := by
  obtain ⟨count, rfl⟩ := h.exists_forward hread
  simpa using List.drop_suffix count cursor.rest

theorem Advances.after_eq {reader : Reader α} (h : Advances reader) {cursor left : Cursor}
    {value : α} (hread : reader cursor = .ok (value, left)) :
    left.position.after left.rest = cursor.position.after cursor.rest := by
  obtain ⟨count, rfl⟩ := h.exists_forward hread
  rw [Cursor.position_forward, Cursor.rest_forward, ← Position.after_append, List.take_append_drop]

-- What is read at one position is read at any.
theorem Advances.reads {reader : Reader α} (h : Advances reader) {cursor left : Cursor} {value : α}
    (hread : reader cursor = .ok (value, left)) : Reads reader cursor.rest value left.rest := by
  obtain ⟨text, position⟩ := cursor
  obtain ⟨count, ⟨other, hother⟩ | ⟨cause, hcause⟩⟩ := h text
  · rw [hother] at hread
    cases hread
    intro other
    rw [hother, Cursor.forward_eq, Cursor.forward_eq]
    exact ⟨_, rfl⟩
  · rw [hcause] at hread
    exact nomatch hread

theorem Advances.eq_of_reads {reader : Reader α} (h : Advances reader) {text rest : List Char}
    {value : α} (hreads : Reads reader (text ++ rest) value rest) (position : Position) :
    reader ⟨text ++ rest, position⟩ = .ok (value, ⟨rest, position.after text⟩) := by
  obtain ⟨after, hread⟩ := hreads position
  obtain ⟨count, hcount⟩ := h.exists_forward hread
  rw [Cursor.forward_eq, Cursor.mk.injEq] at hcount
  obtain ⟨hdropped, rfl⟩ := hcount
  have hsplit := List.take_append_drop count (text ++ rest)
  rw [hdropped] at hsplit
  rw [hread, List.append_cancel_right hsplit]

-- The reader takes at least one character off any text that is left.
def Shortens (reader : Reader α) : Prop :=
  ∀ cursor value left, cursor.rest ≠ [] → reader cursor = .ok (value, left) →
    left.rest.length < cursor.rest.length

theorem shortens_bind {first : Reader α} {next : α → Reader β} (hfirst : Shortens first)
    (hnext : ∀ value, Advances (next value)) : Shortens (first >>= next) := by
  intro cursor result left hne h
  obtain ⟨value, middle, hmiddle, hleft⟩ := bind_eq_ok h
  exact Nat.lt_of_le_of_lt ((hnext value).length_le hleft) (hfirst cursor value middle hne hmiddle)

theorem shortens_remaining {next : List Char → Reader β}
    (hnext : ∀ text, text ≠ [] → Shortens (next text)) : Shortens (remaining >>= next) :=
  fun cursor result left hne h => hnext cursor.rest hne cursor result left hne h

theorem shortens_skip (count : Nat) (hcount : count ≠ 0) : Shortens (skip count) := by
  rintro cursor value left hne h
  obtain rfl : cursor.forward count = left := by simpa [skip] using h
  have hpositive := List.length_pos_iff.mpr hne
  rw [Cursor.rest_forward, List.length_drop]
  omega

theorem commentExtent_ne_zero (text : List Char) (hne : text ≠ []) :
    (commentExtent text).1 ≠ 0 := by
  rw [commentExtent]
  split
  · exact Nat.succ_ne_zero _
  · exact Nat.ne_of_gt (List.length_pos_iff.mpr hne)

theorem shortens_skipComment : Shortens skipComment := by
  refine shortens_remaining fun text hne => shortens_bind (shortens_skip _ ?_) fun _ => ?_
  · exact commentExtent_ne_zero text hne
  · split
    · exact advances_fail _
    · exact advances_pure _

-- Wherever no more than `bound` characters are left, the readers do the same.
def AgreeUpTo (bound : Nat) (first second : Reader α) : Prop :=
  ∀ cursor, cursor.rest.length ≤ bound → first cursor = second cursor

theorem bind_congr {first second : Reader α} {next other : α → Reader β} {cursor : Cursor}
    (hfirst : first cursor = second cursor)
    (hnext : ∀ value left, first cursor = .ok (value, left) →
      next value left = other value left) :
    (first >>= next) cursor = (second >>= other) cursor := by
  cases hread : first cursor with
  | error failure => rw [bind_of_error hread, bind_of_error (hfirst ▸ hread)]
  | ok read =>
      obtain ⟨value, left⟩ := read
      rw [bind_of_ok hread, bind_of_ok (hfirst ▸ hread), hnext value left hread]

theorem agree_refl (bound : Nat) (reader : Reader α) : AgreeUpTo bound reader reader :=
  fun _ _ => rfl

theorem agree_bind {bound : Nat} {first second : Reader α} {next other : α → Reader β}
    (hadvances : Advances first) (hfirst : AgreeUpTo bound first second)
    (hnext : ∀ value, AgreeUpTo bound (next value) (other value)) :
    AgreeUpTo bound (first >>= next) (second >>= other) :=
  fun cursor hcursor => bind_congr (hfirst cursor hcursor) fun value left hread =>
    hnext value left (Nat.le_trans (hadvances.length_le hread) hcursor)

-- After a reader that shortens the text, less is left to agree on.
theorem agree_bind_shortens {bound : Nat} {first second : Reader α} {next other : α → Reader β}
    {cursor : Cursor} (hshortens : Shortens first) (hne : cursor.rest ≠ [])
    (hcursor : cursor.rest.length ≤ bound + 1) (hsame : first cursor = second cursor)
    (hnext : ∀ value, AgreeUpTo bound (next value) (other value)) :
    (first >>= next) cursor = (second >>= other) cursor :=
  bind_congr hsame fun value left hread =>
    hnext value left (Nat.le_of_lt_succ (Nat.lt_of_lt_of_le (hshortens _ _ _ hne hread) hcursor))

section Loops

variable {ω : Type} {readInline other : Reader (Rule ω)}

theorem shortens_readGroup (text : List Char) (draft : Draft ω) :
    Shortens (readGroup text draft) := by
  rw [readGroup]
  dsimp only
  split
  · exact shortens_bind (shortens_skip _ (by omega)) fun _ =>
      advances_bind (advances_fail _) fun _ =>
        advances_bind (advances_skip _) fun _ => advances_pure _
  · exact shortens_bind (shortens_skip _ (by omega)) fun _ => advances_pure _

theorem shortens_readBraces (hinline : Advances readInline) (draft : Draft ω) :
    Shortens (readBraces readInline draft) := by
  refine shortens_remaining fun text _ => ?_
  split
  · exact shortens_bind (shortens_skip 3 (by omega)) fun _ => advances_pure _
  · exact shortens_bind (shortens_skip 3 (by omega)) fun _ => advances_pure _
  · exact shortens_bind (shortens_skip 2 (by omega)) fun _ => advances_readInner hinline _
  · exact shortens_bind (shortens_skip 3 (by omega)) fun _ => advances_readInner hinline _
  · exact shortens_readGroup _ draft

theorem agree_readInner {bound : Nat} (hinline : Advances readInline)
    (hagree : AgreeUpTo bound readInline other) (finish : Rule ω → Draft ω) :
    AgreeUpTo bound (readInner readInline finish) (readInner other finish) :=
  agree_bind (advances_skipBlanks true) (agree_refl _ _) fun _ =>
    agree_bind hinline hagree fun _ => agree_refl _ _

-- A rule in braces is shorter than the text that the braces are in.
theorem agree_readBraces {bound : Nat} (hinline : Advances readInline)
    (hagree : AgreeUpTo bound readInline other) (draft : Draft ω) :
    AgreeUpTo (bound + 1) (readBraces readInline draft) (readBraces other draft) := by
  intro cursor hcursor
  refine bind_congr rfl ?_
  rintro _ _ ⟨⟩
  by_cases hne : cursor.rest = []
  · rw [hne]
    rfl
  · generalize cursor.rest.drop 1 = inside
    split
    · rfl
    · rfl
    · exact agree_bind_shortens (shortens_skip 2 (by omega)) hne hcursor rfl fun _ =>
        agree_readInner hinline hagree _
    · exact agree_bind_shortens (shortens_skip 3 (by omega)) hne hcursor rfl fun _ =>
        agree_readInner hinline hagree _
    · rfl

theorem readQuotedBody_nil (readInline : Reader (Rule ω)) (quote : Char) (steps : Nat)
    (draft : Draft ω) (position : Position) :
    readQuotedBody readInline quote steps draft ⟨[], position⟩ = .ok (draft, ⟨[], position⟩) := by
  cases steps <;> rfl

theorem agree_readQuotedBody {limit : Nat} (hinline : Advances readInline)
    (hagree : AgreeUpTo limit readInline other) (quote : Char) (bound few many : Nat)
    (draft : Draft ω) (hlimit : bound ≤ limit + 1) (hfew : bound ≤ few) (hmany : bound ≤ many) :
    AgreeUpTo bound (readQuotedBody readInline quote few draft)
      (readQuotedBody other quote many draft) := by
  induction bound generalizing few many draft with
  | zero =>
      rintro ⟨text, position⟩ htext
      obtain rfl : text = [] := List.eq_nil_of_length_eq_zero (Nat.le_zero.mp htext)
      rw [readQuotedBody_nil, readQuotedBody_nil]
  | succ bound ih =>
      obtain ⟨few, rfl⟩ := Nat.exists_eq_add_of_le' (Nat.le_trans (Nat.succ_pos bound) hfew)
      obtain ⟨many, rfl⟩ := Nat.exists_eq_add_of_le' (Nat.le_trans (Nat.succ_pos bound) hmany)
      have hrest := fun draft => ih few many draft (by omega) (by omega) (by omega)
      rintro ⟨text, position⟩ htext
      cases text with
      | nil => rw [readQuotedBody_nil, readQuotedBody_nil]
      | cons character rest =>
          refine bind_congr rfl ?_
          rintro _ _ ⟨⟩
          dsimp only
          split
          · rfl
          · split
            · exact agree_bind_shortens (shortens_readBraces hinline draft) (List.cons_ne_nil _ _)
                htext (agree_readBraces hinline hagree draft _ (Nat.le_trans htext hlimit)) hrest
            · exact agree_bind_shortens (shortens_skip 1 (by omega)) (List.cons_ne_nil _ _) htext
                rfl fun _ => hrest _

theorem readBareBody_nil (readInline : Reader (Rule ω)) (steps : Nat) (draft : Draft ω)
    (spaces : List Char) (position : Position) :
    readBareBody readInline steps draft spaces ⟨[], position⟩ = .ok (draft, ⟨[], position⟩) := by
  cases steps <;> rfl

theorem agree_readBareBody {limit : Nat} (hinline : Advances readInline)
    (hagree : AgreeUpTo limit readInline other) (bound few many : Nat) (draft : Draft ω)
    (spaces : List Char) (hlimit : bound ≤ limit + 1) (hfew : bound ≤ few)
    (hmany : bound ≤ many) :
    AgreeUpTo bound (readBareBody readInline few draft spaces)
      (readBareBody other many draft spaces) := by
  induction bound generalizing few many draft spaces with
  | zero =>
      rintro ⟨text, position⟩ htext
      obtain rfl : text = [] := List.eq_nil_of_length_eq_zero (Nat.le_zero.mp htext)
      rw [readBareBody_nil, readBareBody_nil]
  | succ bound ih =>
      obtain ⟨few, rfl⟩ := Nat.exists_eq_add_of_le' (Nat.le_trans (Nat.succ_pos bound) hfew)
      obtain ⟨many, rfl⟩ := Nat.exists_eq_add_of_le' (Nat.le_trans (Nat.succ_pos bound) hmany)
      have hrest := fun draft spaces =>
        ih few many draft spaces (by omega) (by omega) (by omega)
      rintro ⟨text, position⟩ htext
      refine bind_congr rfl ?_
      rintro _ _ ⟨⟩
      dsimp only
      split
      · rfl
      · exact agree_bind_shortens shortens_skipComment (List.cons_ne_nil _ _) htext rfl
          fun _ => hrest _ _
      · exact agree_bind_shortens (shortens_readBraces hinline _) (List.cons_ne_nil _ _) htext
          (agree_readBraces hinline hagree _ _ (Nat.le_trans htext hlimit)) fun _ => hrest _ _
      · split
        · rfl
        · split
          · exact agree_bind_shortens (shortens_skip 1 (by omega)) (List.cons_ne_nil _ _) htext rfl
              fun _ => hrest _ _
          · exact agree_bind_shortens (shortens_skip 1 (by omega)) (List.cons_ne_nil _ _) htext rfl
              fun _ => hrest _ _

variable [Weight ω]

theorem agree_readQuoted {bound : Nat} (hinline : Advances readInline)
    (hagree : AgreeUpTo bound readInline other) (quote : Char) :
    AgreeUpTo (bound + 1) (readQuoted readInline quote) (readQuoted other quote) := by
  refine agree_bind (advances_skip 1) (agree_refl _ _) fun _ cursor hcursor => ?_
  refine bind_congr rfl ?_
  rintro _ _ ⟨⟩
  exact bind_congr (agree_readQuotedBody hinline hagree quote _ _ _ _ hcursor (Nat.le_refl _)
    (Nat.le_refl _) cursor (Nat.le_refl _)) fun _ _ _ => rfl

theorem agree_readBare {bound : Nat} (hinline : Advances readInline)
    (hagree : AgreeUpTo bound readInline other) :
    AgreeUpTo (bound + 1) (readBare readInline) (readBare other) := by
  intro cursor hcursor
  refine bind_congr rfl ?_
  rintro _ _ ⟨⟩
  exact bind_congr (agree_readBareBody hinline hagree _ _ _ _ _ hcursor (Nat.le_refl _)
    (Nat.le_refl _) cursor (Nat.le_refl _)) fun _ _ _ => rfl

theorem agree_readChoice {bound : Nat} (hinline : Advances readInline)
    (hagree : AgreeUpTo bound readInline other) :
    AgreeUpTo (bound + 1) (readChoice readInline) (readChoice other) := by
  refine agree_bind advances_remaining (agree_refl _ _) fun text => ?_
  cases text with
  | nil => exact agree_refl _ _
  | cons character rest =>
      dsimp only
      split
      · exact agree_refl _ _
      · split
        · exact agree_readQuoted hinline hagree character
        · exact agree_readBare hinline hagree

theorem readMoreChoices_nil (readInline : Reader (Rule ω)) (steps : Nat)
    (choices : List (Choice ω)) (position : Position) :
    readMoreChoices readInline steps choices ⟨[], position⟩ = .ok (choices, ⟨[], position⟩) := by
  cases steps <;> rfl

theorem agree_readMoreChoices {limit : Nat} (hinline : Advances readInline)
    (hagree : AgreeUpTo limit readInline other) (bound few many : Nat)
    (choices : List (Choice ω)) (hlimit : bound ≤ limit + 1) (hfew : bound ≤ few)
    (hmany : bound ≤ many) :
    AgreeUpTo bound (readMoreChoices readInline few choices)
      (readMoreChoices other many choices) := by
  induction bound generalizing few many choices with
  | zero =>
      rintro ⟨text, position⟩ htext
      obtain rfl : text = [] := List.eq_nil_of_length_eq_zero (Nat.le_zero.mp htext)
      rw [readMoreChoices_nil, readMoreChoices_nil]
  | succ bound ih =>
      obtain ⟨few, rfl⟩ := Nat.exists_eq_add_of_le' (Nat.le_trans (Nat.succ_pos bound) hfew)
      obtain ⟨many, rfl⟩ := Nat.exists_eq_add_of_le' (Nat.le_trans (Nat.succ_pos bound) hmany)
      have hchoice : AgreeUpTo bound (readChoice readInline) (readChoice other) :=
        fun cursor hcursor => agree_readChoice hinline hagree cursor (by omega)
      rintro ⟨text, position⟩ htext
      refine bind_congr rfl ?_
      rintro _ _ ⟨⟩
      dsimp only
      split
      · refine agree_bind_shortens (shortens_skip 1 (by omega)) (List.cons_ne_nil _ _) htext rfl
          fun _ => ?_
        refine agree_bind advances_skipToContinuation (agree_refl _ _) fun _ => ?_
        refine agree_bind (advances_readChoice hinline) hchoice fun choice => ?_
        refine agree_bind (advances_skipBlanks false) (agree_refl _ _) fun _ => ?_
        exact ih few many _ (by omega) (by omega) (by omega)
      · rfl

theorem agree_readChoices {bound : Nat} (hinline : Advances readInline)
    (hagree : AgreeUpTo bound readInline other) :
    AgreeUpTo (bound + 1) (readChoices readInline) (readChoices other) := by
  refine agree_bind (advances_readChoice hinline) (agree_readChoice hinline hagree) fun choice => ?_
  refine agree_bind (advances_skipBlanks false) (agree_refl _ _) fun _ cursor hcursor => ?_
  refine bind_congr rfl ?_
  rintro _ _ ⟨⟩
  exact agree_readMoreChoices hinline hagree _ _ _ _ hcursor (Nat.le_refl _) (Nat.le_refl _)
    cursor (Nat.le_refl _)

end Loops

theorem readMoreDirectives_nil (compile : Compiler) (steps : Nat) (transforms : List Transform)
    (position : Position) :
    readMoreDirectives compile steps transforms ⟨[], position⟩ =
      .ok (transforms, ⟨[], position⟩) := by
  cases steps <;> rfl

theorem agree_readMoreDirectives (compile : Compiler) (bound few many : Nat)
    (transforms : List Transform) (hfew : bound ≤ few) (hmany : bound ≤ many) :
    AgreeUpTo bound (readMoreDirectives compile few transforms)
      (readMoreDirectives compile many transforms) := by
  induction bound generalizing few many transforms with
  | zero =>
      rintro ⟨text, position⟩ htext
      obtain rfl : text = [] := List.eq_nil_of_length_eq_zero (Nat.le_zero.mp htext)
      rw [readMoreDirectives_nil, readMoreDirectives_nil]
  | succ bound ih =>
      obtain ⟨few, rfl⟩ := Nat.exists_eq_add_of_le' (Nat.le_trans (Nat.succ_pos bound) hfew)
      obtain ⟨many, rfl⟩ := Nat.exists_eq_add_of_le' (Nat.le_trans (Nat.succ_pos bound) hmany)
      rintro ⟨text, position⟩ htext
      refine bind_congr rfl ?_
      rintro _ _ ⟨⟩
      dsimp only
      split
      · refine agree_bind_shortens (shortens_skip 1 (by omega)) (List.cons_ne_nil _ _) htext rfl
          fun _ => ?_
        refine agree_bind advances_skipToContinuation (agree_refl _ _) fun _ => ?_
        refine agree_bind (advances_readDirective compile) (agree_refl _ _) fun transform => ?_
        refine agree_bind (advances_skipBlanks false) (agree_refl _ _) fun _ => ?_
        exact ih few many _ (by omega) (by omega)
      · rfl

section Rules

variable {ω : Type} [Weight ω]

theorem readRule_nil (compile : Compiler) (depth : Nat) (position : Position) :
    (readRule compile depth : Reader (Rule ω)) ⟨[], position⟩ =
      .error ⟨.textExpected, ⟨[], position⟩⟩ := by
  cases depth <;> rfl

-- Rules nest no deeper than their text is long.
theorem agree_readRule (compile : Compiler) (bound few many : Nat) (hfew : bound ≤ few)
    (hmany : bound ≤ many) :
    AgreeUpTo bound (readRule compile few : Reader (Rule ω)) (readRule compile many) := by
  induction bound generalizing few many with
  | zero =>
      rintro ⟨text, position⟩ htext
      obtain rfl : text = [] := List.eq_nil_of_length_eq_zero (Nat.le_zero.mp htext)
      rw [readRule_nil, readRule_nil]
  | succ bound ih =>
      obtain ⟨few, rfl⟩ := Nat.exists_eq_add_of_le' (Nat.le_trans (Nat.succ_pos bound) hfew)
      obtain ⟨many, rfl⟩ := Nat.exists_eq_add_of_le' (Nat.le_trans (Nat.succ_pos bound) hmany)
      have hrule := advances_readRule (ω := ω) compile few
      have hinline : AgreeUpTo bound (readInline compile few : Reader (Rule ω))
          (readInline compile many) :=
        agree_bind hrule (ih few many (by omega) (by omega)) fun _ => agree_refl _ _
      have hadvances := advances_readInline compile few hrule
      rw [readRule_succ, readRule_succ]
      exact agree_bind (advances_readChoices hadvances) (agree_readChoices hadvances hinline)
        fun _ => agree_refl _ _

end Rules

-- A bound as long as the text is as good as any larger one.
def Suffices (reader : Nat → Reader α) : Prop :=
  ∀ few many, few ≤ many → AgreeUpTo few (reader few) (reader many)

-- No rule and no loop of an assignment is cut off by the bound that it is
-- given.
structure BoundsSuffice (ω : Type) [Weight ω] (compile : Compiler) : Prop where
  rules : Suffices (readRule compile : Nat → Reader (Rule ω))
  quoted (depth : Nat) (quote : Char) (draft : Draft ω) :
    Suffices fun steps => readQuotedBody (readInline compile depth) quote steps draft
  bare (depth : Nat) (draft : Draft ω) (spaces : List Char) :
    Suffices fun steps => readBareBody (readInline compile depth) steps draft spaces
  choices (depth : Nat) (choices : List (Choice ω)) :
    Suffices fun steps => readMoreChoices (readInline compile depth) steps choices
  directives (transforms : List Transform) :
    Suffices fun steps => readMoreDirectives compile steps transforms

theorem boundsSuffice (ω : Type) [Weight ω] (compile : Compiler) : BoundsSuffice ω compile := by
  have hinline := fun depth =>
    advances_readInline compile depth (advances_readRule (ω := ω) compile depth)
  exact {
    rules few many h := agree_readRule compile few few many (Nat.le_refl _) h
    quoted depth quote draft few many h :=
      agree_readQuotedBody (hinline depth) (agree_refl few _) quote few few many draft
        (Nat.le_succ few) (Nat.le_refl _) h
    bare depth draft spaces few many h :=
      agree_readBareBody (hinline depth) (agree_refl few _) few few many draft spaces
        (Nat.le_succ few) (Nat.le_refl _) h
    choices depth choices few many h :=
      agree_readMoreChoices (hinline depth) (agree_refl few _) few few many choices
        (Nat.le_succ few) (Nat.le_refl _) h
    directives transforms few many h :=
      agree_readMoreDirectives compile few few many transforms (Nat.le_refl _) h }

end PhraseGrammar.Reading
