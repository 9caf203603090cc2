import PhraseGrammar.Proofs.Grammar.Names
import PhraseGrammar.Proofs.Reading.Advances

namespace PhraseGrammar.Reading

-- A cursor that stands at the end of the text or of a line.
def Cursor.Halted (cursor : Cursor) : Prop :=
  ∀ character ∈ cursor.rest.head?, character = '\n'

section Ensures

variable {α β : Type}

-- What holds of every value that the reader gives and of the cursor that it
-- leaves.
def Ensures (reader : Reader α) (post : α → Cursor → Prop) : Prop :=
  ∀ cursor value left, reader cursor = .ok (value, left) → post value left

theorem ensures_bind {first : Reader α} {next : α → Reader β} {post : β → Cursor → Prop}
    (hnext : ∀ value, Ensures (next value) post) : Ensures (first >>= next) post := by
  intro cursor result left h
  obtain ⟨value, middle, -, hleft⟩ := bind_eq_ok h
  exact hnext value middle result left hleft

theorem ensures_remaining {next : List Char → Reader β} {post : β → Cursor → Prop}
    (hnext : ∀ cursor result left,
      next cursor.rest cursor = .ok (result, left) → post result left) :
    Ensures (remaining >>= next) post :=
  hnext

end Ensures

variable {ω : Type} [Weight ω] (compile : Compiler)

-- Reads an assignment whose name comes first.
def readNamed : Reader (Option (Assignment ω)) := do
  let name ← readName
  skipBlanks false
  let weight ← readWeight
  skipBlanks false
  let equalized ← readOperator
  skipToContinuation
  let rule ← readRule compile (← remaining).length
  match ← remaining with
  | [] | '\n' :: _ =>
      return some ⟨name, { rule with fixedWeight := weight, equalized := equalized }⟩
  | _ => fail .lineEndExpected

theorem readAssignment_eq : (readAssignment compile : Reader (Option (Assignment ω))) = (do
    skipBlanks true
    if (← remaining).isEmpty then return none else readNamed compile) :=
  rfl

theorem ensures_readNamed :
    Ensures (readNamed compile : Reader (Option (Assignment ω))) fun read left =>
      left.Halted ∧ read ≠ none := by
  refine ensures_bind fun name => ensures_bind fun _ => ensures_bind fun weight => ?_
  refine ensures_bind fun _ => ensures_bind fun equalized => ensures_bind fun _ => ?_
  refine ensures_bind fun text => ensures_bind fun rule => ensures_remaining ?_
  rintro ⟨rest, position⟩ read left hread
  dsimp only at hread
  split at hread
  · cases hread
    exact ⟨nofun, Option.some_ne_none _⟩
  · cases hread
    refine ⟨?_, Option.some_ne_none _⟩
    rintro _ ⟨⟩
    rfl
  · exact nomatch hread

theorem ensures_readAssignment :
    Ensures (readAssignment compile : Reader (Option (Assignment ω))) fun read left =>
      left.Halted ∧ (read = none → left.rest = []) := by
  rw [readAssignment_eq]
  refine ensures_bind fun _ => ensures_remaining ?_
  rintro ⟨rest, position⟩ read left hread
  cases rest with
  | nil =>
      cases hread
      exact ⟨nofun, fun _ => rfl⟩
  | cons character rest =>
      obtain ⟨hhalted, hsome⟩ := ensures_readNamed compile _ _ _ hread
      exact ⟨hhalted, fun hnone => absurd hnone hsome⟩

-- All that reading into a grammar can do: find nothing more, add an assignment
-- of a new name, or fail, for a name that is assigned already or before that.
inductive ReadsInto (grammar : Grammar ω) (cursor : Cursor) :
    Except Failure (Grammar ω × Cursor) → Prop
  | nothing (left : Cursor)
      (hread : readAssignment compile cursor = .ok ((none : Option (Assignment ω)), left)) :
      ReadsInto grammar cursor (.ok (grammar, left))
  | added (assignment : Assignment ω) (left : Cursor)
      (hread : readAssignment compile cursor = .ok (some assignment, left))
      (hname : assignment.name ∉ grammar.names) :
      ReadsInto grammar cursor (.ok ({ grammar with
        assignments := grammar.assignments ++ [⟨assignment.name, assignment.rule.unlinked⟩],
        start := none }, left))
  | assigned (assignment : Assignment ω) (left : Cursor)
      (hread : readAssignment compile cursor = .ok (some assignment, left))
      (hname : assignment.name ∈ grammar.names) :
      ReadsInto grammar cursor (.error ⟨.assignedTwice assignment.name, left⟩)
  | failed (failure : Failure)
      (hread : (readAssignment compile : Reader (Option (Assignment ω))) cursor =
        .error failure) :
      ReadsInto grammar cursor (.error failure)

section Into

variable {compile} {grammar : Grammar ω} {cursor left : Cursor}

theorem readInto_of_none
    (hread : readAssignment compile cursor = .ok ((none : Option (Assignment ω)), left)) :
    readInto compile grammar cursor = .ok (grammar, left) := by
  rw [readInto, bind_of_ok hread]
  rfl

theorem readInto_of_new (assignment : Assignment ω)
    (hread : readAssignment compile cursor = .ok (some assignment, left))
    (hname : assignment.name ∉ grammar.names) :
    readInto compile grammar cursor = .ok ({ grammar with
      assignments := grammar.assignments ++ [⟨assignment.name, assignment.rule.unlinked⟩],
      start := none }, left) := by
  rw [readInto, bind_of_ok hread]
  simp only [grammar.insert_of_not_mem _ _ hname]
  rfl

theorem readInto_of_assigned (assignment : Assignment ω)
    (hread : readAssignment compile cursor = .ok (some assignment, left))
    (hname : assignment.name ∈ grammar.names) :
    readInto compile grammar cursor = .error ⟨.assignedTwice assignment.name, left⟩ := by
  rw [readInto, bind_of_ok hread]
  simp only [grammar.insert_of_mem _ _ hname]
  rfl

theorem readInto_of_error (failure : Failure)
    (hread : (readAssignment compile : Reader (Option (Assignment ω))) cursor =
      .error failure) :
    readInto compile grammar cursor = .error failure := by
  rw [readInto, bind_of_error hread]

end Into

theorem readsInto (grammar : Grammar ω) (cursor : Cursor) :
    ReadsInto compile grammar cursor (readInto compile grammar cursor) := by
  cases hread : (readAssignment compile : Reader (Option (Assignment ω))) cursor with
  | error failure =>
      rw [readInto_of_error failure hread]
      exact .failed failure hread
  | ok read =>
      obtain ⟨_ | assignment, left⟩ := read
      · rw [readInto_of_none hread]
        exact .nothing left hread
      · by_cases hname : assignment.name ∈ grammar.names
        · rw [readInto_of_assigned assignment hread hname]
          exact .assigned assignment left hread hname
        · rw [readInto_of_new assignment hread hname]
          exact .added assignment left hread hname

theorem ensures_readInto (grammar : Grammar ω) :
    Ensures (readInto compile grammar) fun _ left => left.Halted := by
  intro cursor result left hinto
  have hcases := readsInto compile grammar cursor
  rw [hinto] at hcases
  cases hcases with
  | nothing _ hread => exact (ensures_readAssignment compile _ _ _ hread).1
  | added assignment _ hread hname => exact (ensures_readAssignment compile _ _ _ hread).1

theorem halted_drop_failedExtent (continued : Bool) (text : List Char) :
    ∀ character ∈ (text.drop (failedExtent continued text)).head?, character = '\n' := by
  induction text generalizing continued with
  | nil => rintro _ ⟨⟩
  | cons first rest ih =>
      rw [failedExtent]
      split
      · split
        · exact ih false
        · rintro _ ⟨⟩
          assumption
      · split
        · exact ih continued
        · exact ih _

theorem halted_recover (cursor : Cursor) : cursor.recover.Halted := by
  rw [Cursor.Halted, Cursor.recover, Cursor.rest_forward]
  exact halted_drop_failedExtent false cursor.rest

theorem halted_readTurn (progress : Progress ω) (cursor : Cursor) :
    (readTurn compile progress cursor).2.Halted := by
  rw [readTurn]
  split
  next grammar left hread => exact ensures_readInto compile _ _ _ _ hread
  next failure hread => exact halted_recover failure.cursor

theorem blankExtent_le (newlines inside : Bool) (text : List Char) :
    (blankExtent newlines inside text).1 ≤ text.length := by
  fun_induction blankExtent newlines inside text <;> simp_all

theorem blankExtent_append (newlines inside : Bool) (text rest : List Char)
    (h : blankExtent newlines inside text = (text.length, true)) :
    blankExtent newlines inside (text ++ rest) =
      (text.length + (blankExtent newlines false rest).1, (blankExtent newlines false rest).2) := by
  fun_induction blankExtent newlines inside text with
  | case1 inside =>
      obtain rfl : inside = false := by simpa using h
      simp
  | case2 character text length closed htext ih =>
      obtain ⟨rfl, rfl⟩ : length = text.length ∧ closed = true := by simpa using h
      have hih := ih htext
      simp only [List.cons_append, blankExtent, hih, List.length_cons, Nat.add_right_comm]
  | case3 text length closed htext ih =>
      obtain ⟨rfl, rfl⟩ : length = text.length ∧ closed = true := by simpa using h
      have hih := ih htext
      simp only [List.cons_append, blankExtent, hih, List.length_cons, Nat.add_right_comm]
  | case4 character text hcomment hblank length closed htext ih =>
      obtain ⟨rfl, rfl⟩ : length = text.length ∧ closed = true := by simpa using h
      have hih := ih htext
      rw [List.cons_append, blankExtent, if_pos hblank, hih]
      · simp only [List.length_cons, Nat.add_right_comm]
      · rintro rest rfl hstar
        simp [isSpace] at hblank
  | case5 character text hcomment hblank => simp at h

theorem skipBlanks_eq (newlines : Bool) (cursor : Cursor) :
    skipBlanks newlines cursor =
      if (blankExtent newlines false cursor.rest).2 then
        .ok ((), cursor.forward (blankExtent newlines false cursor.rest).1)
      else
        .error ⟨.openComment, cursor.forward (blankExtent newlines false cursor.rest).1⟩ := by
  rw [skipBlanks, bind_of_ok (show remaining cursor = .ok (cursor.rest, cursor) from rfl)]
  rcases blankExtent newlines false cursor.rest with ⟨length, _ | _⟩ <;> rfl

theorem skipBlanks_eq_ok (newlines : Bool) (cursor left : Cursor) :
    skipBlanks newlines cursor = .ok ((), left) ↔
      (blankExtent newlines false cursor.rest).2 = true ∧
        cursor.forward (blankExtent newlines false cursor.rest).1 = left := by
  rw [skipBlanks_eq]
  split <;> simp [*]

-- A text of blanks before another text may be skipped first.
theorem skipBlanks_append (newlines : Bool) (text rest : List Char) (position after : Position)
    (h : skipBlanks newlines ⟨text, position⟩ = .ok ((), ⟨[], after⟩)) :
    skipBlanks newlines ⟨text ++ rest, position⟩ = skipBlanks newlines ⟨rest, after⟩ := by
  obtain ⟨hclosed, hleft⟩ := (skipBlanks_eq_ok newlines _ _).mp h
  rw [Cursor.forward_eq, Cursor.mk.injEq] at hleft
  obtain ⟨hdrop, rfl⟩ := hleft
  have hlength : (blankExtent newlines false text).1 = text.length :=
    Nat.le_antisymm (blankExtent_le newlines false text) (List.drop_eq_nil_iff.mp hdrop)
  have hextent := blankExtent_append newlines false text rest (Prod.ext hlength hclosed)
  have hforward := Cursor.forward_forward text.length (blankExtent newlines false rest).1
    ⟨text ++ rest, position⟩
  rw [Cursor.forward_eq text.length, List.drop_left, List.take_left] at hforward
  simp only [skipBlanks_eq, hextent, hforward, hlength, List.take_length]

theorem readTurn_newline (progress : Progress ω) (rest : List Char) (position : Position) :
    readTurn compile progress ⟨'\n' :: rest, position⟩ =
      readTurn compile progress ⟨rest, position.next '\n'⟩ := by
  have hread : readInto compile progress.grammar ⟨'\n' :: rest, position⟩ =
      readInto compile progress.grammar ⟨rest, position.next '\n'⟩ :=
    bind_at (bind_at (skipBlanks_append true ['\n'] rest position _ rfl))
  rw [readTurn, readTurn, hread]

-- All that a turn can do: take in an assignment, or report a failure that it
-- has come to on its way.
theorem readTurn_cases (progress : Progress ω) (cursor : Cursor) :
    (∃ grammar count, readTurn compile progress cursor =
      (⟨grammar, progress.reports⟩, cursor.forward count)) ∨
    ∃ cause count more, readTurn compile progress cursor =
      (⟨progress.grammar, progress.reports ++ [Failure.report ⟨cause, cursor.forward count⟩]⟩,
        cursor.forward (count + more)) := by
  obtain ⟨text, position⟩ := cursor
  obtain ⟨count, ⟨grammar, hgrammar⟩ | ⟨cause, hcause⟩⟩ :=
    advances_readInto compile progress.grammar text
  · refine .inl ⟨grammar, count, ?_⟩
    rw [readTurn, hgrammar]
  · refine .inr ⟨cause, count, failedExtent false (text.drop count), ?_⟩
    rw [readTurn, hcause]
    simp only [Cursor.recover, Cursor.rest_forward, Cursor.forward_forward]

-- What every turn keeps holds after any number of them.
theorem readTurns_induction {motive : Progress ω → Prop}
    (hturn : ∀ progress cursor, motive progress →
      motive (readTurn compile progress cursor).1)
    (turns : Nat) (progress : Progress ω) (cursor : Cursor) (h : motive progress) :
    motive (readTurns compile turns progress cursor) := by
  induction turns generalizing progress cursor with
  | zero => exact h
  | succ turns ih =>
      rw [readTurns]
      split
      · exact h
      · exact ih _ _ (hturn progress cursor h)

-- A turn that does not start at the end moves the cursor: what it starts with
-- is a newline, which is a blank, or a character that it cannot halt at. One
-- that starts at a newline has gone past it when it comes to a failure.
theorem readTurn_steps (progress : Progress ω) (cursor : Cursor) (hsome : cursor.rest ≠ []) :
    (∃ grammar count, 0 < count ∧ readTurn compile progress cursor =
      (⟨grammar, progress.reports⟩, cursor.forward count)) ∨
    ∃ cause count more, 0 < count + more ∧ (cursor.Halted → 0 < count) ∧
      readTurn compile progress cursor =
        (⟨progress.grammar, progress.reports ++ [Failure.report ⟨cause, cursor.forward count⟩]⟩,
          cursor.forward (count + more)) := by
  obtain ⟨text, position⟩ := cursor
  obtain ⟨first, rest, rfl⟩ := List.exists_cons_of_ne_nil hsome
  by_cases hfirst : first = '\n'
  · subst hfirst
    rw [readTurn_newline]
    rcases readTurn_cases compile progress ⟨rest, position.next '\n'⟩ with
      ⟨grammar, count, h⟩ | ⟨cause, count, more, h⟩
    · exact .inl ⟨grammar, count + 1, Nat.succ_pos count, h⟩
    · refine .inr ⟨cause, count + 1, more, by omega, fun _ => Nat.succ_pos count, ?_⟩
      rw [h, Nat.add_right_comm]
      rfl
  · have hmoves : ∀ count, (readTurn compile progress ⟨first :: rest, position⟩).2 =
        Cursor.forward count ⟨first :: rest, position⟩ → 0 < count := by
      intro count hcount
      refine Nat.pos_of_ne_zero ?_
      rintro rfl
      have hhalted := halted_readTurn compile progress ⟨first :: rest, position⟩
      rw [hcount] at hhalted
      exact hfirst (hhalted first rfl)
    rcases readTurn_cases compile progress ⟨first :: rest, position⟩ with
      ⟨grammar, count, h⟩ | ⟨cause, count, more, h⟩
    · exact .inl ⟨grammar, count, hmoves count (congrArg Prod.snd h), h⟩
    · exact .inr ⟨cause, count, more, hmoves _ (congrArg Prod.snd h),
        fun hhalted => absurd (hhalted first rfl) hfirst, h⟩

theorem line_lt_forward (cursor : Cursor) (count : Nat) (hsome : cursor.rest ≠ [])
    (hhalted : cursor.Halted) (hpositive : 0 < count) :
    cursor.position.line < (cursor.forward count).position.line := by
  obtain ⟨text, position⟩ := cursor
  obtain ⟨first, rest, rfl⟩ := List.exists_cons_of_ne_nil hsome
  obtain rfl : first = '\n' := hhalted first rfl
  obtain ⟨less, rfl⟩ := Nat.exists_eq_add_of_le' hpositive
  rw [Cursor.line_forward, List.take_succ_cons, List.count_cons_self]
  omega

theorem line_le_forward (cursor : Cursor) (count : Nat) :
    cursor.position.line ≤ (cursor.forward count).position.line := by
  rw [Cursor.line_forward]
  exact Nat.le_add_right _ _

end PhraseGrammar.Reading
