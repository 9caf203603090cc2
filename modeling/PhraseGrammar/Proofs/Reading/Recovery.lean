import PhraseGrammar.Proofs.Reading.Independence
import PhraseGrammar.Proofs.Reading.WellFormed

namespace PhraseGrammar.Reading

-- The last character of a line that is no space.
def lastSign (line : List Char) : Option Char :=
  (line.filter fun character => !isSpace character).getLast?

def asksForMore (character : Char) : Bool :=
  character == '|' || character == '~' || character == '='

def isContinued (line : List Char) : Bool := (lastSign line).any asksForMore

-- What is left of a text after its first line that is not continued. The
-- newline that ends the line is left, too.
def resumption (text : List Char) : List Char :=
  ((text.splitOn '\n').dropWhile isContinued).tail.flatMap ('\n' :: ·)

theorem flatMap_splitOn (text : List Char) :
    (text.splitOn '\n').flatMap ('\n' :: ·) = '\n' :: text := by
  induction text with
  | nil => rfl
  | cons character rest ih =>
      rw [List.splitOn_eq_splitOnP] at ih ⊢
      rw [List.splitOnP_cons_eq_if_modifyHead]
      by_cases hnewline : character = '\n'
      · simp [hnewline, ih]
      · have hsome := List.splitOnP_ne_nil (· == '\n') rest
        obtain ⟨first, others, hlines⟩ := List.exists_cons_of_ne_nil hsome
        rw [hlines, List.flatMap_cons, List.cons_append, List.cons.injEq] at ih
        simp [hnewline, hlines, ih.2]

theorem resumption_eq (text : List Char) :
    resumption text = [] ∨ ∃ more, resumption text = '\n' :: more := by
  rw [resumption]
  cases ((text.splitOn '\n').dropWhile isContinued).tail with
  | nil => exact .inl rfl
  | cons line others => exact .inr ⟨_, rfl⟩

section Lines

variable (line more : List Char) (hline : '\n' ∉ line)

include hline

theorem resumption_line : resumption line = [] := by
  have hsplit : line.splitOn '\n' = [line] := by
    apply List.splitOnP_eq_singleton
    intro character hmem
    exact beq_false_of_ne (ne_of_mem_of_not_mem hmem hline)
  rw [resumption, hsplit]
  cases h : isContinued line <;> simp [h]

theorem resumption_newline :
    resumption (line ++ '\n' :: more) =
      if isContinued line then resumption more else '\n' :: more := by
  have hsplit : (line ++ '\n' :: more).splitOn '\n' = line :: more.splitOn '\n' := by
    refine List.splitOnP_append_cons_of_forall_mem ?_ '\n' rfl more
    intro character hmem
    exact beq_false_of_ne (ne_of_mem_of_not_mem hmem hline)
  rw [resumption, hsplit]
  cases h : isContinued line
  · simp only [List.dropWhile_cons, h, List.tail_cons, flatMap_splitOn, Bool.false_eq_true, if_false]
  · simp only [List.dropWhile_cons, h, if_true, resumption]

-- A line is passed over with nothing but its last sign kept in mind.
theorem failedExtent_line (continued : Bool) :
    failedExtent continued (line ++ more) =
      line.length + failedExtent ((lastSign line).elim continued asksForMore) more := by
  induction line generalizing continued with
  | nil => exact (Nat.zero_add _).symm
  | cons character rest ih =>
      obtain ⟨hnewline, hrest⟩ := not_or.mp (mt List.mem_cons.mpr hline)
      rw [List.cons_append, failedExtent, if_neg (Ne.symm hnewline)]
      by_cases hspace : isSpace character
      · have hlast : lastSign (character :: rest) = lastSign rest := by simp [lastSign, hspace]
        rw [if_pos hspace, ih hrest, hlast, List.length_cons, Nat.add_right_comm]
      · have hlast : lastSign (character :: rest) = some ((lastSign rest).getD character) := by
          simp [lastSign, hspace, List.getLast?_cons]
        rw [if_neg hspace, ih hrest, hlast, List.length_cons, Nat.add_right_comm]
        cases lastSign rest <;> rfl

end Lines

-- The text that is passed over ends where the resumption starts.
theorem drop_failedExtent (text : List Char) :
    text.drop (failedExtent false text) = resumption text := by
  induction hlength : text.length using Nat.strongRecOn generalizing text with
  | ind length ih =>
      by_cases hnewline : '\n' ∈ text
      · obtain ⟨line, more, rfl, hline⟩ := List.eq_append_cons_of_mem hnewline
        have hflag : (lastSign line).elim false asksForMore = isContinued line := by
          rw [isContinued]
          cases lastSign line <;> rfl
        rw [failedExtent_line line _ hline, resumption_newline line more hline, hflag,
          List.drop_append, List.drop_of_length_le (Nat.le_add_right _ _), List.nil_append,
          Nat.add_sub_cancel_left, failedExtent, if_pos rfl]
        cases isContinued line
        · rfl
        · have hshorter : more.length < length := by
            rw [← hlength, List.length_append, List.length_cons]
            omega
          exact ih more.length hshorter more rfl
      · have hend : failedExtent false text = text.length := by
          have hwhole := failedExtent_line text [] hnewline false
          rwa [List.append_nil, failedExtent, Nat.add_zero] at hwhole
        rw [hend, List.drop_length, resumption_line text hnewline]

-- Reading is taken up again at the resumption of what the failure has left.
theorem recover_eq (cursor : Cursor) :
    ∃ skipped, cursor.rest = skipped ++ resumption cursor.rest ∧
      cursor.recover = ⟨resumption cursor.rest, cursor.position.after skipped⟩ := by
  obtain ⟨text, position⟩ := cursor
  have hdrop := drop_failedExtent text
  refine ⟨text.take (failedExtent false text), ?_, ?_⟩
  · rw [← hdrop, List.take_append_drop]
  · rw [Cursor.recover, Cursor.forward_eq, hdrop]

theorem recover_of_halted (cursor : Cursor) (h : cursor.Halted) : cursor.recover = cursor := by
  obtain ⟨text, position⟩ := cursor
  cases text with
  | nil => rfl
  | cons character rest =>
      obtain rfl : character = '\n' := h character rfl
      rfl

variable {ω : Type}

-- What comes of an assignment: it is completed, up to the end of its line, or
-- it fails.
inductive Attempt (ω : Type) where
  | completed (assignment : Assignment ω) (left : Cursor)
  | failed (failure : Failure)

namespace Attempt

def assignment? : Attempt ω → Option (Assignment ω)
  | completed assignment _ => some assignment
  | failed _ => none

def below (lines : Nat) : Attempt ω → Attempt ω
  | completed assignment left => completed assignment (left.below lines)
  | failed failure => failed (failure.below lines)

end Attempt

-- An assignment that has been completed is taken in, if it is the first one of
-- its name. Otherwise there is a report.
def Progress.take (progress : Progress ω) : Attempt ω → Progress ω
  | .completed assignment left =>
      if assignment.name ∈ progress.grammar.names then
        { progress with
          reports := progress.reports ++ [Failure.report ⟨.assignedTwice assignment.name, left⟩] }
      else
        { progress with
          grammar := { progress.grammar with
            assignments := progress.grammar.assignments ++ [assignment], start := none } }
  | .failed failure => { progress with reports := progress.reports ++ [failure.report] }

-- The first assignment of each name.
def firsts (assignments : List (Assignment ω)) : List (Assignment ω) :=
  assignments.eraseDupsBy fun later first => later.name == first.name

theorem firsts_cons (first : Assignment ω) (rest : List (Assignment ω)) :
    firsts (first :: rest) =
      first :: firsts (rest.filter fun later => later.name ≠ first.name) := by
  rw [firsts, List.eraseDupsBy_cons]
  simp only [beq_eq_false_iff_ne]
  rfl

variable [Weight ω] (compile : Compiler)

-- The attempts at assignments from the cursor on. After a failure the next one
-- starts at the resumption of what is left.
inductive Attempts : Cursor → List (Attempt ω) → Prop
  | done (cursor left : Cursor)
      (hread : readAssignment compile cursor = .ok ((none : Option (Assignment ω)), left)) :
      Attempts cursor []
  | completed (cursor left : Cursor) (assignment : Assignment ω) (later : List (Attempt ω))
      (hread : readAssignment compile cursor = .ok (some assignment, left))
      (hlater : Attempts left later) :
      Attempts cursor (.completed assignment left :: later)
  | failed (cursor : Cursor) (failure : Failure) (skipped : List Char) (later : List (Attempt ω))
      (hread : (readAssignment compile : Reader (Option (Assignment ω))) cursor = .error failure)
      (hskipped : failure.cursor.rest = skipped ++ resumption failure.cursor.rest)
      (hlater : Attempts ⟨resumption failure.cursor.rest,
        failure.cursor.position.after skipped⟩ later) :
      Attempts cursor (.failed failure :: later)

section Runs

variable {compile}

theorem Attempts.of_eq {cursor other : Cursor} {attempts : List (Attempt ω)}
    (h : Attempts compile cursor attempts)
    (hread : (readAssignment compile : Reader (Option (Assignment ω))) other =
      readAssignment compile cursor) :
    Attempts compile other attempts := by
  cases h with
  | done _ left hdone => exact .done other left (hread.trans hdone)
  | completed _ left assignment later hcompleted hlater =>
      exact .completed other left assignment later (hread.trans hcompleted) hlater
  | failed _ failure skipped later hfailed hskipped hlater =>
      exact .failed other failure skipped later (hread.trans hfailed) hskipped hlater

theorem Attempts.shifted (lines : Nat) {cursor : Cursor} {attempts : List (Attempt ω)}
    (h : Attempts compile cursor attempts) :
    Attempts compile (cursor.below lines) (attempts.map (Attempt.below lines)) := by
  have hadvances := advances_readAssignment (ω := ω) compile
  induction h with
  | done cursor left hread => exact .done _ _ (hadvances.ok_below lines hread)
  | completed cursor left assignment later hread _ ih =>
      exact .completed _ _ assignment _ (hadvances.ok_below lines hread) ih
  | failed cursor failure skipped later hread hskipped _ ih =>
      refine .failed _ _ skipped _ (hadvances.error_below lines hread) hskipped ?_
      rw [Failure.below, Cursor.below, Position.after_below]
      exact ih

omit [Weight ω]

theorem take_of_assigned (progress : Progress ω) (assignment : Assignment ω) (left : Cursor)
    (hname : assignment.name ∈ progress.grammar.names) :
    progress.take (.completed assignment left) =
      { progress with
        reports := progress.reports ++ [Failure.report ⟨.assignedTwice assignment.name, left⟩] } :=
  if_pos hname

theorem take_of_new (progress : Progress ω) (assignment : Assignment ω) (left : Cursor)
    (hname : assignment.name ∉ progress.grammar.names) :
    progress.take (.completed assignment left) =
      { progress with
        grammar := { progress.grammar with
          assignments := progress.grammar.assignments ++ [assignment], start := none } } :=
  if_neg hname

theorem filterMap_assignment?_below (lines : Nat) (attempts : List (Attempt ω)) :
    (attempts.map (Attempt.below lines)).filterMap Attempt.assignment? =
      attempts.filterMap Attempt.assignment? := by
  rw [List.filterMap_map]
  congr 1
  funext attempt
  cases attempt <;> rfl

-- The names that are there already and those of the completed attempts decide
-- which assignments are taken in.
theorem assignments_foldl_take (attempts : List (Attempt ω)) (progress : Progress ω) :
    (attempts.foldl Progress.take progress).grammar.assignments =
      progress.grammar.assignments ++ firsts ((attempts.filterMap Attempt.assignment?).filter
        fun assignment => assignment.name ∉ progress.grammar.names) := by
  induction attempts generalizing progress with
  | nil => simp [firsts]
  | cons attempt later ih =>
      rw [List.foldl_cons, ih]
      cases attempt with
      | failed failure => rfl
      | completed assignment left =>
          have hfirst : (Attempt.completed assignment left :: later).filterMap Attempt.assignment? =
              assignment :: later.filterMap Attempt.assignment? := rfl
          rw [hfirst]
          by_cases hname : assignment.name ∈ progress.grammar.names
          · rw [take_of_assigned _ _ _ hname, List.filter_cons_of_neg (by simpa using hname)]
          · have hnames (other : Assignment ω) :
                other.name ∉ (progress.take (.completed assignment left)).grammar.names ↔
                  other.name ≠ assignment.name ∧ other.name ∉ progress.grammar.names := by
              rw [take_of_new _ _ _ hname, Grammar.names, List.map_append, List.mem_append, not_or,
                and_comm, List.map_singleton, List.mem_singleton]
              rfl
            rw [List.filter_cons_of_pos (by simpa using hname), firsts_cons, List.filter_filter]
            simp only [hnames, Bool.decide_and]
            rw [take_of_new _ _ _ hname, List.append_assoc, List.singleton_append]

end Runs

variable {compile} in
theorem readTurn_of_error (progress : Progress ω) (cursor : Cursor) (failure : Failure)
    (hread : readInto compile progress.grammar cursor = .error failure) :
    readTurn compile progress cursor =
      (⟨progress.grammar, progress.reports ++ [failure.report]⟩, failure.cursor.recover) := by
  rw [readTurn, hread]

-- There are attempts up to the end of the text.
theorem exists_attempts (cursor : Cursor) :
    ∃ attempts : List (Attempt ω), Attempts compile cursor attempts := by
  induction hlength : cursor.rest.length using Nat.strongRecOn generalizing cursor with
  | ind length ih =>
      by_cases hnil : cursor.rest = []
      · obtain ⟨text, position⟩ := cursor
        obtain rfl : text = [] := hnil
        exact ⟨[], .done _ ⟨[], position⟩ rfl⟩
      obtain ⟨count, hpositive, hle, hcount⟩ :=
        readTurn_moves compile (⟨Grammar.empty, []⟩ : Progress ω) cursor hnil
      have hshorter : (readTurn compile (⟨Grammar.empty, []⟩ : Progress ω) cursor).2.rest.length <
          length := by
        rw [hcount, Cursor.rest_forward, List.length_drop]
        omega
      obtain ⟨later, hlater⟩ := ih _ hshorter _ rfl
      cases hread : (readAssignment compile : Reader (Option (Assignment ω))) cursor with
      | error failure =>
          obtain ⟨skipped, hskipped, hrecover⟩ := recover_eq failure.cursor
          rw [readTurn_of_error _ _ _ (readInto_of_error failure hread), hrecover] at hlater
          exact ⟨_, .failed cursor failure skipped later hread hskipped hlater⟩
      | ok read =>
          obtain ⟨_ | assignment, left⟩ := read
          · exact ⟨[], .done cursor left hread⟩
          · rw [readTurn, readInto_of_new assignment hread List.not_mem_nil] at hlater
            exact ⟨_, .completed cursor left assignment later hread hlater⟩

-- A text that starts at the end of a line is read as if it were a text of its
-- own, but for the lines.
theorem exists_attempts_resumption (text : List Char) (position : Position) (lines : Nat)
    (hlines : position.line = 1 + lines) :
    ∃ attempts : List (Attempt ω), Attempts compile (Cursor.ofText (resumption text)) attempts ∧
      Attempts compile ⟨resumption text, position⟩ (attempts.map (Attempt.below lines)) := by
  rcases resumption_eq text with hnil | ⟨more, hnewline⟩
  · rw [hnil]
    exact ⟨[], .done _ _ rfl, .done _ ⟨[], position⟩ rfl⟩
  · rw [hnewline]
    have hskip (place : Position) :
        (readAssignment compile : Reader (Option (Assignment ω))) ⟨'\n' :: more, place⟩ =
          readAssignment compile ⟨more, place.next '\n'⟩ :=
      bind_at (skipBlanks_append true ['\n'] more place _ rfl)
    obtain ⟨attempts, hattempts⟩ :=
      exists_attempts (ω := ω) compile ⟨more, Position.start.next '\n'⟩
    refine ⟨attempts, hattempts.of_eq (hskip _), ?_⟩
    have hnext : position.next '\n' = (Position.start.next '\n').below lines := by
      rw [Position.next, if_pos rfl, hlines, Position.next, if_pos rfl, Position.below,
        Position.start, Nat.add_right_comm]
    have hbelow := hattempts.shifted lines
    rw [Cursor.below, ← hnext] at hbelow
    exact hbelow.of_eq (hskip _)

-- At the end of a text there is nothing to be read, and nothing fails.
theorem rest_ne_nil (cursor : Cursor)
    (h : readAssignment compile cursor ≠ .ok ((none : Option (Assignment ω)), cursor)) :
    cursor.rest ≠ [] := by
  obtain ⟨text, position⟩ := cursor
  rintro rfl
  exact h rfl

-- Reading on takes the attempts in one after another.
theorem readOn_eq_foldl_take (cursor : Cursor) (attempts : List (Attempt ω))
    (h : Attempts compile cursor attempts) (progress : Progress ω) :
    readOn compile progress cursor = attempts.foldl Progress.take progress := by
  induction h generalizing progress with
  | done cursor left hread =>
      have hend : left.rest = [] := (ensures_readAssignment compile _ _ _ hread).2 rfl
      obtain ⟨rest, after⟩ := left
      obtain rfl : rest = [] := hend
      by_cases hnil : cursor.rest = []
      · obtain ⟨text, position⟩ := cursor
        obtain rfl : text = [] := hnil
        rfl
      · rw [readOn_of_ok compile progress.grammar progress.reports _ cursor _ hnil
          (readInto_of_none hread), readOn_nil]
        rfl
  | completed cursor left assignment later hread _ ih =>
      have hsome : cursor.rest ≠ [] := rest_ne_nil (ω := ω) compile cursor (by simp [hread])
      have hunlinked : (⟨assignment.name, assignment.rule.unlinked⟩ : Assignment ω) =
          assignment := by
        obtain ⟨_, hrule⟩ := gives_readAssignment compile _ _ _ hread assignment rfl
        rw [assignment.rule.unlinked_of_wellFormed hrule]
      rw [List.foldl_cons]
      by_cases hname : assignment.name ∈ progress.grammar.names
      · have hhalted := (ensures_readAssignment compile _ _ _ hread).1
        rw [take_of_assigned _ _ _ hname, ← ih, readOn_turn compile _ _ hsome,
          readTurn_of_error _ _ _ (readInto_of_assigned assignment hread hname),
          recover_of_halted left hhalted]
      · rw [take_of_new _ _ _ hname, ← ih]
        have hnew := readInto_of_new assignment hread hname
        rw [hunlinked] at hnew
        exact readOn_of_ok compile progress.grammar progress.reports _ cursor left hsome hnew
  | failed cursor failure skipped later hread hskipped _ ih =>
      have hsome : cursor.rest ≠ [] := rest_ne_nil (ω := ω) compile cursor (by simp [hread])
      obtain ⟨other, hother, hrecover⟩ := recover_eq failure.cursor
      obtain rfl : skipped = other := List.append_cancel_right (hskipped.symm.trans hother)
      rw [readOn_turn compile _ _ hsome, readTurn_of_error _ _ _ (readInto_of_error failure hread),
        hrecover, ih]
      rfl

-- How a text is read on after a failure in it. Nothing is taken in but the
-- report. What is left is read as a text of its own would be, that many lines
-- below and with the names that are there already.
structure PassesOver (text : List Char) (progress : Progress ω) (cursor : Cursor)
    (failure : Failure) (reached skipped : List Char) (later : List (Attempt ω)) : Prop where
  text_eq : text = reached ++ failure.cursor.rest
  position_eq : failure.cursor.position = Position.start.after reached
  rest_eq : failure.cursor.rest = skipped ++ resumption failure.cursor.rest
  readTurn_eq : readTurn compile progress cursor =
    (⟨progress.grammar, progress.reports ++ [failure.report]⟩,
      ⟨resumption failure.cursor.rest, Position.start.after (reached ++ skipped)⟩)
  attempts : Attempts compile (Cursor.ofText (resumption failure.cursor.rest)) later
  readOn_eq : readOn compile progress cursor =
    (later.map (Attempt.below ((reached ++ skipped).count '\n'))).foldl Progress.take
      ⟨progress.grammar, progress.reports ++ [failure.report]⟩
  assignments_eq : (readOn compile progress cursor).grammar.assignments =
    progress.grammar.assignments ++ firsts ((later.filterMap Attempt.assignment?).filter
      fun assignment => assignment.name ∉ progress.grammar.names)

theorem exists_passesOver (progress : Progress ω) (before rest : List Char) (failure : Failure)
    (hread : readInto compile progress.grammar ⟨rest, Position.start.after before⟩ =
      .error failure) :
    ∃ reached skipped later, PassesOver compile (before ++ rest) progress
      ⟨rest, Position.start.after before⟩ failure reached skipped later := by
  obtain ⟨reached, htext, hposition⟩ : ∃ reached, before ++ rest = reached ++ failure.cursor.rest ∧
      failure.cursor.position = Position.start.after reached := by
    obtain ⟨count, ⟨value, hvalue⟩ | ⟨cause, hcause⟩⟩ :=
      advances_readInto compile progress.grammar rest
    · exact nomatch (hvalue _).symm.trans hread
    · obtain rfl := Except.error.inj ((hcause _).symm.trans hread)
      refine ⟨before ++ rest.take count, ?_, ?_⟩
      · rw [Cursor.forward_eq, List.append_assoc, List.take_append_drop]
      · rw [Cursor.forward_eq, Position.after_append]
  have hsome : rest ≠ [] := by
    rintro rfl
    exact nomatch hread
  obtain ⟨skipped, hskipped, hrecover⟩ := recover_eq failure.cursor
  have hturn := readTurn_of_error progress _ failure hread
  rw [hrecover, hposition, ← Position.after_append] at hturn
  obtain ⟨later, hlater, hplaced⟩ := exists_attempts_resumption (ω := ω) compile
    failure.cursor.rest _ _ (Position.line_after Position.start (reached ++ skipped))
  have hgoes := readOn_turn compile progress ⟨rest, Position.start.after before⟩ hsome
  rw [hturn, readOn_eq_foldl_take compile _ _ hplaced] at hgoes
  refine ⟨reached, skipped, later, htext, hposition, hskipped, hturn, hlater, hgoes, ?_⟩
  rw [hgoes, assignments_foldl_take, filterMap_assignment?_below]

-- An assignment that fails costs itself and the lines that continue it: nothing
-- of it is taken in, and the rest is read as if it were a text of its own. So
-- what is read of a text is the completed assignments, the first one of each
-- name, in order.
theorem failure_costs_its_lines (text : List Char) :
    (∃ attempts : List (Attempt ω), Attempts compile (Cursor.ofText text) attempts ∧
      readAssignments compile text = attempts.foldl Progress.take ⟨Grammar.empty, []⟩ ∧
      (readAssignments compile text : Progress ω).grammar.assignments =
        firsts (attempts.filterMap Attempt.assignment?)) ∧
    ∀ (progress : Progress ω) (before rest : List Char) (failure : Failure),
      text = before ++ rest →
      readInto compile progress.grammar ⟨rest, Position.start.after before⟩ = .error failure →
        ∃ reached skipped later, PassesOver compile text progress
          ⟨rest, Position.start.after before⟩ failure reached skipped later := by
  constructor
  · obtain ⟨attempts, hattempts⟩ := exists_attempts (ω := ω) compile (Cursor.ofText text)
    have hread : readAssignments compile text = attempts.foldl Progress.take _ :=
      readOn_eq_foldl_take compile _ attempts hattempts ⟨Grammar.empty, []⟩
    refine ⟨attempts, hattempts, hread, ?_⟩
    have hassignments := assignments_foldl_take attempts (⟨Grammar.empty, []⟩ : Progress ω)
    rw [← hread] at hassignments
    simpa [Grammar.empty, Grammar.names] using hassignments
  · rintro progress before rest failure rfl hread
    exact exists_passesOver compile progress before rest failure hread

-- A name without an operator, in an assignment of three lines, and a name
-- assigned twice.
def continuedLines : String := "a 1.x = b |\n  c ~ \t\nd\ne = f\ne = g\nh = i"

theorem continuedLines_cost_their_lines :
    (∃ (failure : Failure) (reached skipped : List Char) (later : List (Attempt Rat)),
      failure.report = .unreadable 1 5 .operatorExpected ∧
      PassesOver refused continuedLines.toList ⟨Grammar.empty, []⟩
        (Cursor.ofText continuedLines.toList) failure reached skipped later ∧
      resumption failure.cursor.rest = "\ne = f\ne = g\nh = i".toList) ∧
    (readAssignments refused continuedLines.toList : Progress Rat).grammar.names = ["e", "h"] := by
  have hread : readInto refused (Grammar.empty : Grammar Rat)
      ⟨continuedLines.toList, Position.start.after []⟩ =
        .error ⟨.operatorExpected,
          ⟨"x = b |\n  c ~ \t\nd\ne = f\ne = g\nh = i".toList, ⟨1, 5⟩⟩⟩ := by
    rfl
  obtain ⟨reached, skipped, later, hpasses⟩ :=
    (failure_costs_its_lines (ω := Rat) refused continuedLines.toList).2 ⟨Grammar.empty, []⟩ []
      _ _ rfl hread
  exact ⟨⟨_, reached, skipped, later, rfl, hpasses, by decide +kernel⟩, by decide +kernel⟩

end PhraseGrammar.Reading
