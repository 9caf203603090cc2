import PhraseGrammar.Proofs.Reading.Bounds
import PhraseGrammar.Proofs.Reading.Turns

namespace PhraseGrammar.Reading

-- The same cursor in a text that goes on.
def Cursor.extended (tail : List Char) (cursor : Cursor) : Cursor :=
  ⟨cursor.rest ++ tail, cursor.position⟩

theorem Cursor.forward_extended (tail : List Char) (count : Nat) (cursor : Cursor)
    (h : count ≤ cursor.rest.length) :
    forward count (cursor.extended tail) = (forward count cursor).extended tail := by
  obtain ⟨text, position⟩ := cursor
  simp only [extended, forward_eq, List.drop_append_of_le_length h, List.take_append_of_le_length h]

section Seams

variable {tail left text : List Char}

-- How much has to be left of a text for a reader not to see what the text goes
-- on with. Most readers stop at a newline just as at the end, and none of them
-- looks past a closing brace.
def Anything (_ : List Char) : Prop := True

def Delimited (tail left : List Char) : Prop := tail.head? = some '\n' ∨ '}' ∈ left

def Pending (tail left : List Char) : Prop := left ≠ [] ∧ Delimited tail left

theorem Delimited.of_isSuffix (h : Delimited tail left) (hsuffix : left <:+ text) :
    Delimited tail text :=
  h.imp_right fun hbrace => hsuffix.subset hbrace

theorem Delimited.exists_newline (h : Delimited tail []) : ∃ more, tail = '\n' :: more :=
  List.head?_eq_some_iff.mp (h.resolve_right List.not_mem_nil)

-- No comment is opened where the texts meet.
theorem Delimited.ne_comment (h : Delimited tail ['{']) (more : List Char) :
    tail ≠ '*' :: more := by
  rintro rfl
  simp [Delimited] at h

end Seams

section Extends

variable {α β : Type} (tail : List Char)

-- What the first reader takes off a text, the second one takes off the text
-- that goes on, if enough is left.
def ExtendsAt (enough : List Char → Prop) (cursor : Cursor) (first second : Reader α) : Prop :=
  ∀ value left, first cursor = .ok (value, left) → left.rest <:+ cursor.rest ∧
    (enough left.rest → second (cursor.extended tail) = .ok (value, left.extended tail))

def Extends (enough : List Char → Prop) (first second : Reader α) : Prop :=
  ∀ cursor, ExtendsAt tail enough cursor first second

def FailsAtEnd (reader : Reader α) : Prop :=
  ∀ position value left, reader ⟨[], position⟩ ≠ .ok (value, left)

variable {tail} {enough before after : List Char → Prop} {cursor : Cursor}

theorem extendsAt_of_advances {first second : Reader α} (hadvances : Advances first)
    (h : ∀ value left, first cursor = .ok (value, left) → enough left.rest →
      second (cursor.extended tail) = .ok (value, left.extended tail)) :
    ExtendsAt tail enough cursor first second :=
  fun value left hread => ⟨hadvances.isSuffix hread, h value left hread⟩

theorem extends_pure (value : α) : Extends tail enough (pure value) (pure value) := by
  rintro cursor _ _ ⟨⟩
  exact ⟨List.suffix_rfl, fun _ => rfl⟩

theorem extends_fail (cause : Cause) (second : Reader α) :
    Extends tail enough (fail cause) second :=
  fun _ _ _ h => nomatch h

theorem extendsAt_skip (count : Nat) (h : count ≤ cursor.rest.length) :
    ExtendsAt tail enough cursor (skip count) (skip count) := by
  refine extendsAt_of_advances (advances_skip count) ?_
  rintro _ _ ⟨⟩ _
  rw [skip, cursor.forward_extended tail count h]

theorem extendsAt_remaining {next other : List Char → Reader β}
    (hnext : ExtendsAt tail enough cursor (next cursor.rest) (other (cursor.rest ++ tail))) :
    ExtendsAt tail enough cursor (remaining >>= next) (remaining >>= other) :=
  hnext

theorem extends_remaining {next other : List Char → Reader β}
    (hnext : ∀ text position, ExtendsAt tail enough ⟨text, position⟩ (next text)
      (other (text ++ tail))) :
    Extends tail enough (remaining >>= next) (remaining >>= other) :=
  fun cursor => hnext cursor.rest cursor.position

-- What the second part leaves tells whether the first one has left enough.
theorem extendsAt_bind_of {first second : Reader α} {next other : α → Reader β}
    (hfirst : ExtendsAt tail before cursor first second)
    (hnext : ∀ value left, first cursor = .ok (value, left) →
      ExtendsAt tail after left (next value) (other value))
    (henough : ∀ value middle result left, next value middle = .ok (result, left) →
      left.rest <:+ middle.rest → after left.rest → before middle.rest) :
    ExtendsAt tail after cursor (first >>= next) (second >>= other) := by
  intro result left h
  obtain ⟨value, middle, hmiddle, hresult⟩ := bind_eq_ok h
  obtain ⟨hshorter, hsecond⟩ := hfirst value middle hmiddle
  obtain ⟨hsuffix, hother⟩ := hnext value middle hmiddle result left hresult
  refine ⟨hsuffix.trans hshorter, fun hleft => ?_⟩
  rw [bind_of_ok (hsecond (henough value middle result left hresult hsuffix hleft))]
  exact hother hleft

theorem extendsAt_bind {first second : Reader α} {next other : α → Reader β}
    (hfirst : ExtendsAt tail Anything cursor first second)
    (hnext : ∀ value left, first cursor = .ok (value, left) →
      ExtendsAt tail enough left (next value) (other value)) :
    ExtendsAt tail enough cursor (first >>= next) (second >>= other) :=
  extendsAt_bind_of hfirst hnext fun _ _ _ _ _ _ _ => trivial

theorem extends_bind {first second : Reader α} {next other : α → Reader β}
    (hfirst : Extends tail Anything first second)
    (hnext : ∀ value, Extends tail enough (next value) (other value)) :
    Extends tail enough (first >>= next) (second >>= other) :=
  fun cursor => extendsAt_bind (hfirst cursor) fun value left _ => hnext value left

theorem extendsAt_bind_delimited {first second : Reader α} {next other : α → Reader β}
    (hfirst : ExtendsAt tail (Delimited tail) cursor first second)
    (hnext : ∀ value left, first cursor = .ok (value, left) →
      ExtendsAt tail (Delimited tail) left (next value) (other value)) :
    ExtendsAt tail (Delimited tail) cursor (first >>= next) (second >>= other) :=
  extendsAt_bind_of hfirst hnext fun _ _ _ _ _ hsuffix hleft => hleft.of_isSuffix hsuffix

theorem extends_bind_delimited {first second : Reader α} {next other : α → Reader β}
    (hfirst : Extends tail (Delimited tail) first second)
    (hnext : ∀ value, Extends tail (Delimited tail) (next value) (other value)) :
    Extends tail (Delimited tail) (first >>= next) (second >>= other) :=
  fun cursor => extendsAt_bind_delimited (hfirst cursor) fun value left _ => hnext value left

-- A reader that fails at the end goes on only where something is left.
theorem FailsAtEnd.rest_ne_nil {reader : Reader α} (h : FailsAtEnd reader) {left : Cursor}
    {value : α} (hread : reader cursor = .ok (value, left)) : cursor.rest ≠ [] := by
  obtain ⟨rest, position⟩ := cursor
  rintro rfl
  exact h position value left hread

theorem extendsAt_bind_partway {first second : Reader α} {next other : α → Reader β}
    (hfirst : ExtendsAt tail (· ≠ []) cursor first second)
    (hend : ∀ value, FailsAtEnd (next value))
    (hnext : ∀ value left, first cursor = .ok (value, left) →
      ExtendsAt tail enough left (next value) (other value)) :
    ExtendsAt tail enough cursor (first >>= next) (second >>= other) :=
  extendsAt_bind_of hfirst hnext fun value _ _ _ hread _ _ => (hend value).rest_ne_nil hread

theorem extendsAt_bind_pending {first second : Reader α} {next other : α → Reader β}
    (hfirst : ExtendsAt tail (Pending tail) cursor first second)
    (hend : ∀ value, FailsAtEnd (next value))
    (hnext : ∀ value left, first cursor = .ok (value, left) →
      ExtendsAt tail (Delimited tail) left (next value) (other value)) :
    ExtendsAt tail (Delimited tail) cursor (first >>= next) (second >>= other) :=
  extendsAt_bind_of hfirst hnext fun value _ _ _ hread hsuffix hleft =>
    ⟨(hend value).rest_ne_nil hread, hleft.of_isSuffix hsuffix⟩

theorem failsAtEnd_fail (cause : Cause) : FailsAtEnd (fail cause : Reader α) :=
  fun _ _ _ h => nomatch h

theorem failsAtEnd_remaining {next : List Char → Reader β} (h : FailsAtEnd (next [])) :
    FailsAtEnd (remaining >>= next) :=
  h

theorem failsAtEnd_bind {first : Reader α} {next : α → Reader β} (hfirst : FailsAtEnd first) :
    FailsAtEnd (first >>= next) := by
  intro position result left h
  obtain ⟨value, middle, hmiddle, -⟩ := bind_eq_ok h
  exact hfirst position value middle hmiddle

theorem extendsAt_ite {condition : Prop} [Decidable condition] {yes yes' no no' : Reader α}
    (hyes : condition → ExtendsAt tail enough cursor yes yes')
    (hno : ¬ condition → ExtendsAt tail enough cursor no no') :
    ExtendsAt tail enough cursor (if condition then yes else no)
      (if condition then yes' else no') := by
  split
  · exact hyes ‹_›
  · exact hno ‹_›

theorem extendsAt_unless {condition other : Prop} [Decidable condition] [Decidable other]
    (cause : Cause) {next second : Unit → Reader α} (hcondition : ¬ condition → ¬ other)
    (hnext : ¬ condition → ExtendsAt tail enough cursor (next ()) (second ())) :
    ExtendsAt tail enough cursor (if condition then fail cause >>= next else next ())
      (if other then fail cause >>= second else second ()) := by
  by_cases h : condition
  · rw [if_pos h]
    exact fun _ _ hread => nomatch hread
  · rw [if_neg h, if_neg (hcondition h)]
    exact hnext h

end Extends

section Runs

variable {tail : List Char}

-- A run goes on no further if it ends within the text, or if what the text
-- goes on with does not belong to it.
theorem takeWhile_extended (tail : List Char) (property : Char → Bool) (text : List Char)
    (h : (text.takeWhile property).length = text.length →
      ∀ character ∈ tail.head?, property character = false) :
    (text ++ tail).takeWhile property = text.takeWhile property := by
  induction text with
  | nil => simpa using takeWhile_append property [] tail nofun (h rfl)
  | cons character rest ih =>
      rw [List.cons_append, List.takeWhile_cons, List.takeWhile_cons]
      split
      · next hproperty =>
          rw [ih fun hrest => h (by rw [List.takeWhile_cons, if_pos hproperty]; simp [hrest])]
      · rfl

theorem notMem_takeWhile (property : Char → Bool) (text : List Char) (character : Char)
    (h : property character = false) : character ∉ text.takeWhile property := fun hmem =>
  Bool.false_ne_true (h ▸ List.all_eq_true.mp List.all_takeWhile _ hmem)

theorem takeWhile_delimited (property : Char → Bool) (text : List Char) (h : Delimited tail text)
    (hnewline : property '\n' = false) (hbrace : property '}' = false) :
    (text ++ tail).takeWhile property = text.takeWhile property := by
  refine takeWhile_extended tail property text fun hwhole => ?_
  rcases h with hhead | hmem
  · rw [hhead]
    rintro _ ⟨⟩
    exact hnewline
  · have hrun : text.takeWhile property = text :=
      (List.takeWhile_prefix property).eq_of_length hwhole
    rw [← hrun] at hmem
    exact absurd hmem (notMem_takeWhile property text '}' hbrace)

theorem Delimited.drop_takeWhile {property : Char → Bool} {text run : List Char}
    (h : Delimited tail text) (hrun : text.takeWhile property = run)
    (hbrace : property '}' = false) : Delimited tail (text.drop run.length) := by
  refine h.imp_right fun hmem => ?_
  obtain ⟨rest, hrest⟩ : run <+: text := hrun ▸ List.takeWhile_prefix property
  have hout : '}' ∉ run := hrun ▸ notMem_takeWhile property text '}' hbrace
  rw [← hrest, List.mem_append] at hmem
  rw [← hrest, List.drop_left]
  exact hmem.resolve_left hout

theorem extends_readWhile (enough : List Char → Prop) (property : Char → Bool)
    (h : enough [] → ∀ character ∈ tail.head?, property character = false) :
    Extends tail enough (readWhile property) (readWhile property) := by
  refine fun cursor => extendsAt_of_advances (advances_readWhile property) ?_
  rintro value left hread hleft
  obtain ⟨text, position⟩ := cursor
  have hlength := (List.takeWhile_sublist property (l := text)).length_le
  obtain ⟨_, _, ⟨⟩, ⟨⟩⟩ := bind_eq_ok hread
  have hrun : (text ++ tail).takeWhile property = text.takeWhile property := by
    refine takeWhile_extended tail property text fun hwhole => h ?_
    rwa [Cursor.rest_forward, List.drop_of_length_le (Nat.le_of_eq hwhole.symm)] at hleft
  refine (bind_of_ok (rfl : remaining _ = .ok (text ++ tail, _))).trans ?_
  rw [hrun]
  exact (extendsAt_bind (extendsAt_skip _ hlength) (fun _ _ _ => extends_pure _ _) _ _ rfl).2 hleft

theorem blankExtent_extended (newlines inside : Bool) (text : List Char)
    (hclosed : (blankExtent newlines inside text).2 = true)
    (hleft : Delimited tail (text.drop (blankExtent newlines inside text).1))
    (hnewlines : newlines = true → text.drop (blankExtent newlines inside text).1 ≠ []) :
    blankExtent newlines inside (text ++ tail) = blankExtent newlines inside text := by
  fun_induction blankExtent newlines inside text with
  | case1 inside =>
      obtain rfl : inside = false := by simpa using hclosed
      obtain rfl : newlines = false := by simpa using hnewlines
      obtain ⟨more, rfl⟩ := Delimited.exists_newline hleft
      rfl
  | case2 character rest length closed hrest ih =>
      rw [hrest] at ih
      have hih := ih hclosed hleft hnewlines
      rw [List.cons_append, blankExtent, hih]
  | case3 rest length closed hrest ih =>
      rw [hrest] at ih
      have hih := ih hclosed hleft hnewlines
      rw [List.cons_append, List.cons_append, blankExtent, hih]
  | case4 character rest hcomment hblank length closed hrest ih =>
      rw [hrest] at ih
      have hih := ih hclosed hleft hnewlines
      rw [List.cons_append, blankExtent, if_pos hblank, hih]
      rintro rest rfl hstar
      simp [isSpace] at hblank
  | case5 character rest hcomment hblank =>
      rw [List.cons_append, blankExtent, if_neg hblank]
      rintro more rfl hstar
      cases rest with
      | nil => exact Delimited.ne_comment hleft more hstar
      | cons next rest => exact hcomment rest rfl (by rw [(List.cons.inj hstar).1])

-- Blanks that a newline ends, or that something else on their lines does.
theorem extends_skipBlanks (newlines : Bool) {enough : List Char → Prop}
    (hdelimited : ∀ left, enough left → Delimited tail left)
    (hnewlines : newlines = true → ¬ enough []) :
    Extends tail enough (skipBlanks newlines) (skipBlanks newlines) := by
  refine fun cursor => extendsAt_of_advances (advances_skipBlanks newlines) ?_
  intro value left hread hleft
  obtain ⟨hclosed, rfl⟩ := (skipBlanks_eq_ok newlines _ _).mp hread
  have hle := blankExtent_le newlines false cursor.rest
  rw [Cursor.rest_forward] at hleft
  have hextent : blankExtent newlines false (cursor.rest ++ tail) =
      blankExtent newlines false cursor.rest :=
    blankExtent_extended newlines false cursor.rest hclosed (hdelimited _ hleft)
      fun hnewline hnil => hnewlines hnewline (hnil ▸ hleft)
  refine (skipBlanks_eq_ok newlines _ _).mpr ?_
  rw [Cursor.extended, hextent]
  exact ⟨hclosed, Cursor.forward_extended tail _ cursor hle⟩

theorem extends_skipBlanks_line :
    Extends tail (Delimited tail) (skipBlanks false) (skipBlanks false) :=
  extends_skipBlanks false (fun _ h => h) nofun

theorem extends_skipBlanks_pending (newlines : Bool) :
    Extends tail (Pending tail) (skipBlanks newlines) (skipBlanks newlines) :=
  extends_skipBlanks newlines (fun _ h => h.2) fun _ h => h.1 rfl

theorem commentExtent_extended (tail text : List Char) (hclosed : (commentExtent text).2 = true) :
    (commentExtent text).1 ≤ text.length ∧ commentExtent (text ++ tail) = commentExtent text := by
  unfold commentExtent at hclosed ⊢
  dsimp only at hclosed ⊢
  split at hclosed
  · next hlt =>
      have hdrop : (text ++ tail).drop 2 = text.drop 2 ++ tail :=
        List.drop_append_of_le_length (by omega)
      have hbody : ((text ++ tail).drop 2).takeWhile (· != '}') =
          (text.drop 2).takeWhile (· != '}') := by
        rw [hdrop]
        refine takeWhile_extended tail _ _ fun hwhole => ?_
        rw [List.length_drop] at hwhole
        omega
      have hlonger : ((text.drop 2).takeWhile (· != '}')).length + 2 < (text ++ tail).length := by
        rw [List.length_append]
        omega
      rw [hbody, if_pos hlt, if_pos hlonger]
      exact ⟨hlt, rfl⟩
  · exact nomatch hclosed

theorem extends_skipComment : Extends tail Anything skipComment skipComment := by
  refine extends_remaining fun text position value left hread => ?_
  rcases hcomment : commentExtent text with ⟨length, _ | _⟩
  · rw [hcomment] at hread
    exact nomatch hread
  · obtain ⟨hle, hextent⟩ := commentExtent_extended tail text (by rw [hcomment])
    rw [hcomment] at hle hextent hread
    rw [hextent]
    exact extendsAt_bind (extendsAt_skip _ hle) (fun _ _ _ => extends_pure _ _) value left hread

theorem extends_skipToContinuation :
    Extends tail (Pending tail) skipToContinuation skipToContinuation := by
  intro cursor
  refine extendsAt_bind_of (extends_skipBlanks_line cursor) (fun _ middle _ => ?_)
    fun _ _ _ _ _ hsuffix hleft => hleft.2.of_isSuffix hsuffix
  refine extendsAt_remaining fun value left hread => ?_
  obtain ⟨text, position⟩ := middle
  cases text with
  | nil =>
      cases hread
      exact ⟨List.suffix_rfl, fun hleft => absurd rfl hleft.1⟩
  | cons character rest =>
      rw [List.cons_append, List.head?_cons]
      refine extendsAt_ite (fun _ => ?_) (fun _ => extends_pure _ _) value left hread
      refine extendsAt_bind (extendsAt_skip 1 (by simp)) fun _ left _ => ?_
      exact extends_skipBlanks_pending false left

theorem extends_readName : Extends tail (Delimited tail) readName readName := by
  refine extends_bind_delimited (extends_readWhile _ _ fun hleft => ?_) fun name cursor => ?_
  · obtain ⟨more, rfl⟩ := hleft.exists_newline
    rintro _ ⟨⟩
    decide
  · exact extendsAt_unless _ id fun _ => extends_pure _ _

theorem extends_readOperator : Extends tail Anything readOperator readOperator := by
  refine extends_remaining fun text position value left hread => ?_
  split at hread
  · exact extendsAt_bind (extendsAt_skip 1 (by simp)) (fun _ _ _ => extends_pure _ _) value left
      hread
  · exact extendsAt_bind (extendsAt_skip 2 (by simp)) (fun _ _ _ => extends_pure _ _) value left
      hread
  · exact nomatch hread
  · exact nomatch hread

end Runs

section Weights

variable {ω : Type} [Weight ω] {tail : List Char}

theorem extendsAt_readNumeral {enough : List Char → Prop} {cursor : Cursor} (numeral : List Char)
    (h : numeral.length ≤ cursor.rest.length) :
    ExtendsAt tail enough cursor (readNumeral numeral : Reader ω) (readNumeral numeral) := by
  refine extendsAt_bind (extendsAt_skip _ h) fun _ _ _ => ?_
  split
  · exact extends_pure _ _
  · exact extends_fail _ _ _

-- A run of digits ends before a newline and before a closing brace.
theorem extends_readWeight :
    Extends tail (Delimited tail) (readWeight : Reader (Option ω)) readWeight := by
  refine fun cursor => extendsAt_of_advances advances_readWeight fun value left hread hleft => ?_
  have htext := hleft.of_isSuffix (advances_readWeight.isSuffix hread)
  obtain ⟨text, position⟩ := cursor
  have hsome (numeral : List Char) (h : numeral.length ≤ text.length) :
      ExtendsAt tail (Delimited tail) ⟨text, position⟩
        (do return some (← readNumeral numeral) : Reader (Option ω))
        (do return some (← readNumeral numeral)) :=
    extendsAt_bind (extendsAt_readNumeral numeral h) fun _ _ _ => extends_pure _ _
  obtain ⟨whole, hwhole⟩ : ∃ whole, text.takeWhile Char.isDigit = whole := ⟨_, rfl⟩
  have hle : whole.length ≤ text.length :=
    hwhole ▸ (List.takeWhile_sublist Char.isDigit (l := text)).length_le
  have hlong : (text ++ tail).takeWhile Char.isDigit = whole :=
    (takeWhile_delimited Char.isDigit text htext (by decide) (by decide)).trans hwhole
  have hdrop : (text ++ tail).drop whole.length = text.drop whole.length ++ tail :=
    List.drop_append_of_le_length hle
  have hafter := htext.drop_takeWhile hwhole (by decide)
  by_cases hpoint : (text.drop whole.length).head? = some '.'
  · obtain ⟨rest, hrest⟩ := List.head?_eq_some_iff.mp hpoint
    have hfraction : Delimited tail rest := by
      simpa [hrest, Delimited] using hafter
    rw [readWeight_of_point ⟨text, position⟩ rest hwhole hrest] at hread
    rw [hrest] at hdrop
    rw [readWeight_of_point (Cursor.extended tail ⟨text, position⟩) (rest ++ tail) hlong hdrop,
      takeWhile_delimited Char.isDigit rest hfraction (by decide) (by decide)]
    refine (extendsAt_ite (fun _ => ?_) (fun _ => hsome _ ?_) value left hread).2 hleft
    · exact fun _ _ h => nomatch h
    · have hlength := congrArg List.length hrest
      have hdigits := (List.takeWhile_sublist Char.isDigit (l := rest)).length_le
      simp only [List.length_drop, List.length_cons, List.length_append] at hlength ⊢
      omega
  · have hpoint' : ((text ++ tail).drop whole.length).head? ≠ some '.' := by
      rw [hdrop]
      cases htail : text.drop whole.length with
      | nil =>
          obtain ⟨more, rfl⟩ := Delimited.exists_newline (htail ▸ hafter)
          simp
      | cons character rest => rwa [htail] at hpoint
    rw [readWeight_of_no_point ⟨text, position⟩ hwhole hpoint] at hread
    rw [readWeight_of_no_point (Cursor.extended tail ⟨text, position⟩) hlong hpoint']
    refine (extendsAt_ite (fun _ => ?_) (fun _ => hsome _ hle) value left hread).2 hleft
    exact extends_pure _ _

end Weights

section Directives

variable {tail : List Char}

theorem failsAtEnd_readSeparator : FailsAtEnd readSeparator :=
  failsAtEnd_remaining (failsAtEnd_fail _)

theorem extends_readSeparator : Extends tail Anything readSeparator readSeparator := by
  refine extends_remaining fun text position => ?_
  cases text with
  | nil => exact extends_fail _ _ _
  | cons separator rest =>
      refine extendsAt_unless _ id fun _ => extendsAt_unless _ id fun _ =>
        extendsAt_unless _ id fun _ => ?_
      exact extendsAt_bind (extendsAt_skip 1 (by simp)) fun _ _ _ => extends_pure _ _

-- The separator has to come before the end, so a text goes on to it.
theorem extends_readBounded (separator : Char) (mayBeEmpty : Bool) :
    Extends tail Anything (readBounded separator mayBeEmpty)
      (readBounded separator mayBeEmpty) := by
  intro cursor
  refine extendsAt_bind_partway (extends_readWhile (· ≠ []) _ (absurd rfl) cursor)
    (fun text => ?_) fun text middle _ => ?_
  · intro position value left hread
    split at hread <;> exact nomatch hread
  · refine extendsAt_unless _ id fun _ => ?_
    refine extendsAt_remaining (extendsAt_unless _ (fun hsome => ?_) fun hsome => ?_)
    · simpa using fun hnil => absurd hnil (by simpa using hsome)
    · refine extendsAt_bind (extendsAt_skip 1 ?_) fun _ _ _ => extends_pure _ _
      simp only [List.isEmpty_iff] at hsome
      exact List.length_pos_iff.mpr hsome

theorem extends_readGlobalFlag : Extends tail (Delimited tail) readGlobalFlag readGlobalFlag := by
  refine extends_remaining fun text position value left hread => ?_
  cases text with
  | nil =>
      cases hread
      refine ⟨List.suffix_rfl, fun hleft => ?_⟩
      obtain ⟨more, rfl⟩ := hleft.exists_newline
      rfl
  | cons character rest =>
      refine extendsAt_ite (fun _ => ?_) (fun _ => extends_pure _ _) value left hread
      exact extendsAt_bind (extendsAt_skip 1 (by simp)) fun _ _ _ => extends_pure _ _

variable (compile : Compiler)

theorem extends_readDirective :
    Extends tail (Delimited tail) (readDirective compile) (readDirective compile) := by
  refine extends_bind extends_readSeparator fun separator => ?_
  refine extends_bind (extends_readBounded separator false) fun pattern => ?_
  refine extends_bind (extends_readBounded separator true) fun replacement => ?_
  refine extends_bind_delimited extends_readGlobalFlag fun global => ?_
  split
  · exact extends_pure _
  · exact extends_fail _ _

theorem readMoreDirectives_newline (steps : Nat) (transforms : List Transform) (more : List Char)
    (position : Position) :
    readMoreDirectives compile steps transforms ⟨'\n' :: more, position⟩ =
      .ok (transforms, ⟨'\n' :: more, position⟩) := by
  cases steps <;> rfl

theorem extendsAt_readMoreDirectives_nil (few many : Nat) (transforms : List Transform)
    (position : Position) :
    ExtendsAt tail (Delimited tail) ⟨[], position⟩ (readMoreDirectives compile few transforms)
      (readMoreDirectives compile many transforms) := by
  intro value left hread
  rw [readMoreDirectives_nil] at hread
  cases hread
  refine ⟨List.suffix_rfl, fun hleft => ?_⟩
  obtain ⟨more, rfl⟩ := hleft.exists_newline
  exact readMoreDirectives_newline compile many transforms more position

theorem extendsAt_readMoreDirectives (bound few many : Nat) (transforms : List Transform)
    (cursor : Cursor) (hcursor : cursor.rest.length ≤ bound) (hfew : bound ≤ few)
    (hmany : bound ≤ many) :
    ExtendsAt tail (Delimited tail) cursor (readMoreDirectives compile few transforms)
      (readMoreDirectives compile many transforms) := by
  induction bound generalizing few many transforms cursor with
  | zero =>
      obtain ⟨text, position⟩ := cursor
      obtain rfl : text = [] := List.eq_nil_of_length_eq_zero (Nat.le_zero.mp hcursor)
      exact extendsAt_readMoreDirectives_nil compile few many transforms position
  | succ bound ih =>
      obtain ⟨text, position⟩ := cursor
      cases text with
      | nil => exact extendsAt_readMoreDirectives_nil compile few many transforms position
      | cons character rest =>
          obtain ⟨few, rfl⟩ := Nat.exists_eq_add_of_le' (Nat.le_trans (Nat.succ_pos bound) hfew)
          obtain ⟨many, rfl⟩ := Nat.exists_eq_add_of_le' (Nat.le_trans (Nat.succ_pos bound) hmany)
          refine extendsAt_remaining ?_
          by_cases htilde : character = '~'
          · subst htilde
            refine extendsAt_bind (extendsAt_skip 1 (by simp)) fun _ second hsecond => ?_
            refine extendsAt_bind_pending (extends_skipToContinuation second)
              (fun _ => failsAtEnd_bind (failsAtEnd_bind failsAtEnd_readSeparator))
              fun _ third hthird => ?_
            refine extendsAt_bind_delimited (extends_readDirective compile third)
              fun _ fourth hfourth => ?_
            refine extendsAt_bind_delimited (extends_skipBlanks_line fourth)
              fun _ fifth hfifth => ?_
            refine ih few many _ fifth ?_ (by omega) (by omega)
            have hshorter := shortens_skip 1 (by omega) _ _ _ (List.cons_ne_nil _ _) hsecond
            have hlead := advances_skipToContinuation.length_le hthird
            have hdirective := (advances_readDirective compile).length_le hfourth
            have hblanks := (advances_skipBlanks false).length_le hfifth
            omega
          · split
            next heq => exact absurd (List.cons.inj heq).1 htilde
            next =>
              split
              next heq => exact absurd (List.cons.inj heq).1 htilde
              next => exact extends_pure _ _

theorem extends_readDirectives :
    Extends tail (Delimited tail) (readDirectives compile) (readDirectives compile) :=
  extends_remaining fun text position => extendsAt_readMoreDirectives compile text.length _ _ _ _
    (Nat.le_refl _) (Nat.le_refl _) (by rw [List.length_append]; omega)

end Directives

end PhraseGrammar.Reading
