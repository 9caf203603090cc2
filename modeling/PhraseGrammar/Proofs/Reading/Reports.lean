import Mathlib.Data.List.Perm.Subperm
import Mathlib.Logic.Function.Iterate
import PhraseGrammar.Proofs.Inlining.Locals
import PhraseGrammar.Proofs.Reading.Bounds
import PhraseGrammar.Proofs.Reading.Turns

namespace PhraseGrammar

-- Where a text could not be read.
def Diagnostic.position? : Diagnostic → Option Reading.Position
  | .unreadable line column _ => some ⟨line, column⟩
  | _ => none

namespace Reading

variable {ω : Type} [Weight ω] (compile : Compiler)

theorem readTurn_moves (progress : Progress ω) (cursor : Cursor) (hsome : cursor.rest ≠ []) :
    ∃ count, 0 < count ∧ count ≤ cursor.rest.length ∧
      (readTurn compile progress cursor).2 = cursor.forward count := by
  have hlength := List.length_pos_iff.mpr hsome
  have hwithin : ∀ count, 0 < count →
      (readTurn compile progress cursor).2 = cursor.forward count →
      ∃ count, 0 < count ∧ count ≤ cursor.rest.length ∧
        (readTurn compile progress cursor).2 = cursor.forward count := fun count hpositive hcount =>
    ⟨_, by omega, Nat.min_le_right _ _, hcount.trans (cursor.forward_min count)⟩
  rcases readTurn_steps compile progress cursor hsome with
    ⟨grammar, count, hpositive, h⟩ | ⟨cause, count, more, hpositive, -, h⟩
  · exact hwithin count hpositive (congrArg Prod.snd h)
  · exact hwithin (count + more) hpositive (congrArg Prod.snd h)

-- The state of the loop after one more turn.
def turn (state : Progress ω × Cursor) : Progress ω × Cursor :=
  if state.2.atEnd then state else readTurn compile state.1 state.2

theorem turn_of_atEnd (state : Progress ω × Cursor) (hend : state.2.atEnd) :
    turn compile state = state :=
  if_pos hend

theorem readTurns_eq_iterate (turns : Nat) (progress : Progress ω) (cursor : Cursor) :
    readTurns compile turns progress cursor = ((turn compile)^[turns] (progress, cursor)).1 := by
  induction turns generalizing progress cursor with
  | zero => rfl
  | succ turns ih =>
      rw [readTurns, Function.iterate_succ_apply]
      by_cases hend : cursor.atEnd
      · have hfixed := turn_of_atEnd compile (progress, cursor) hend
        rw [if_pos hend, hfixed, Function.iterate_fixed hfixed]
      · have hturn : turn compile (progress, cursor) = readTurn compile progress cursor :=
          if_neg hend
        rw [if_neg hend, hturn]
        exact ih _ _

theorem length_rest_iterate (turns : Nat) (state : Progress ω × Cursor) :
    ((turn compile)^[turns] state).2.rest.length ≤ state.2.rest.length - turns := by
  induction turns generalizing state with
  | zero => exact Nat.le_refl _
  | succ turns ih =>
      rw [Function.iterate_succ_apply]
      refine Nat.le_trans (ih _) ?_
      by_cases hend : state.2.atEnd
      · have hnil : state.2.rest = [] := List.isEmpty_iff.mp hend
        rw [turn_of_atEnd compile state hend]
        simp [hnil]
      · have hsome : state.2.rest ≠ [] := fun hnil => hend (List.isEmpty_iff.mpr hnil)
        obtain ⟨count, hpositive, hle, hcount⟩ := readTurn_moves compile state.1 state.2 hsome
        rw [turn, if_neg hend, hcount, Cursor.rest_forward, List.length_drop]
        omega

theorem atEnd_iterate (turns : Nat) (state : Progress ω × Cursor)
    (hturns : state.2.rest.length ≤ turns) : ((turn compile)^[turns] state).2.atEnd := by
  have hlength := length_rest_iterate compile turns state
  exact List.isEmpty_iff.mpr (List.eq_nil_of_length_eq_zero (by omega))

theorem readTurns_of_le (few many : Nat) (progress : Progress ω) (cursor : Cursor)
    (hfew : cursor.rest.length ≤ few) (hle : few ≤ many) :
    readTurns compile few progress cursor = readTurns compile many progress cursor := by
  obtain ⟨more, rfl⟩ := Nat.exists_eq_add_of_le' hle
  rw [readTurns_eq_iterate, readTurns_eq_iterate, Function.iterate_add_apply,
    Function.iterate_fixed (turn_of_atEnd compile _ (atEnd_iterate compile few _ hfew))]

-- A turn comes to one failure at most, on its way. One that starts at the end
-- of a line comes to it on a later line.
theorem readTurn_failure (progress : Progress ω) (cursor : Cursor) (hsome : cursor.rest ≠ []) :
    ∃ failure : Option Failure,
      (readTurn compile progress cursor).1.reports =
        progress.reports ++ (failure.toList.map Failure.report) ∧
      ∀ found ∈ failure, ∃ before more, found.cursor = cursor.forward before ∧
        (readTurn compile progress cursor).2 = found.cursor.forward more ∧
        (cursor.Halted → cursor.position.line < found.cursor.position.line) := by
  rcases readTurn_steps compile progress cursor hsome with
    ⟨grammar, count, -, h⟩ | ⟨cause, count, more, -, hpositive, h⟩
  · exact ⟨none, by simp [h], nofun⟩
  · refine ⟨some ⟨cause, cursor.forward count⟩, by simp [h], ?_⟩
    rintro _ ⟨⟩
    refine ⟨count, more, rfl, ?_, fun hhalted => ?_⟩
    · rw [h, Cursor.forward_forward]
    · exact line_lt_forward cursor count hsome hhalted (hpositive hhalted)

-- The failures of a whole run stand on lines of their own, one after another.
theorem readTurns_failures (turns : Nat) (progress : Progress ω) (cursor : Cursor) :
    ∃ failures : List Failure,
      (readTurns compile turns progress cursor).reports =
        progress.reports ++ failures.map Failure.report ∧
      failures.Pairwise (·.cursor.position.line < ·.cursor.position.line) ∧
      ∀ failure ∈ failures, (∃ count, failure.cursor = cursor.forward count) ∧
        (cursor.Halted → cursor.position.line < failure.cursor.position.line) := by
  induction turns generalizing progress cursor with
  | zero => exact ⟨[], (List.append_nil _).symm, .nil, List.forall_mem_nil _⟩
  | succ turns ih =>
      rw [readTurns]
      by_cases hend : cursor.atEnd
      · rw [if_pos hend]
        exact ⟨[], (List.append_nil _).symm, .nil, List.forall_mem_nil _⟩
      · rw [if_neg hend]
        have hsome : cursor.rest ≠ [] := fun hnil => hend (List.isEmpty_iff.mpr hnil)
        obtain ⟨count, -, -, hcount⟩ := readTurn_moves compile progress cursor hsome
        obtain ⟨failure, hreports, hfailure⟩ := readTurn_failure compile progress cursor hsome
        have hhalted := halted_readTurn compile progress cursor
        rcases hturn : readTurn compile progress cursor with ⟨next, left⟩
        rw [hturn] at hcount hreports hfailure hhalted
        dsimp only at hcount hreports hfailure hhalted
        obtain ⟨later, hlater, hpairwise, hfound⟩ := ih next left
        have hleft : cursor.position.line ≤ left.position.line := by
          rw [hcount]
          exact line_le_forward cursor count
        refine ⟨failure.toList ++ later, ?_, ?_, ?_⟩
        · rw [hlater, hreports, List.map_append, List.append_assoc]
        · refine List.pairwise_append.mpr ⟨by cases failure <;> simp, hpairwise, ?_⟩
          intro early hearly late hlate
          obtain ⟨before, more, -, hmore, -⟩ := hfailure early (Option.mem_toList.mp hearly)
          have hline : early.cursor.position.line ≤ left.position.line := by
            rw [hmore]
            exact line_le_forward early.cursor more
          exact Nat.lt_of_le_of_lt hline ((hfound late hlate).2 hhalted)
        · intro found hmem
          rcases List.mem_append.mp hmem with hnow | hthen
          · obtain ⟨before, _, hbefore, -, hlines⟩ := hfailure found (Option.mem_toList.mp hnow)
            exact ⟨⟨before, hbefore⟩, hlines⟩
          · obtain ⟨⟨after, hafter⟩, hlines⟩ := hfound found hthen
            exact ⟨⟨count + after, by rw [hafter, hcount, Cursor.forward_forward]⟩,
              fun _ => Nat.lt_of_le_of_lt hleft (hlines hhalted)⟩

theorem filterMap_position?_report (failures : List Failure) :
    (failures.map Failure.report).filterMap Diagnostic.position? =
      failures.map (·.cursor.position) := by
  induction failures with
  | nil => rfl
  | cons failure rest ih =>
      simp only [List.map_cons, Failure.report, Diagnostic.position?, List.filterMap_cons]
      exact congrArg _ ih

omit [Weight ω] in
theorem filterMap_position?_inlineLocals (grammar : Grammar ω) :
    grammar.inlineLocals.2.filterMap Diagnostic.position? = [] := by
  refine List.filterMap_eq_nil_iff.mpr fun report hreport => ?_
  obtain ⟨name, rfl | rfl⟩ := grammar.unresolved_inlineLocals report hreport <;> rfl

-- There are no more lines than there are numbers for them.
theorem length_le_of_increasing (lines : List Nat) (low count : Nat)
    (hincreasing : lines.Pairwise (· < ·))
    (hwithin : ∀ line ∈ lines, low ≤ line ∧ line ≤ low + count) : lines.length ≤ count + 1 := by
  have hnodup : lines.Nodup := hincreasing.imp fun hlt => Nat.ne_of_lt hlt
  have hsub : lines ⊆ List.range' low (count + 1) := by
    intro line hline
    have := hwithin line hline
    rw [List.mem_range'_1]
    omega
  simpa using (hnodup.subperm hsub).length_le

-- The positions in the reports on a text are those of its failures.
theorem exists_failures (text : String) :
    ∃ failures : List Failure,
      (readGrammar compile text : Grammar ω × _).2.filterMap Diagnostic.position? =
        failures.map (·.cursor.position) ∧
      failures.Pairwise (·.cursor.position.line < ·.cursor.position.line) ∧
      ∀ failure ∈ failures, ∃ count ≤ text.toList.length,
        failure.cursor.position = Position.start.after (text.toList.take count) := by
  obtain ⟨failures, hreports, hincreasing, hwithin⟩ := readTurns_failures compile
    text.toList.length (⟨Grammar.empty, []⟩ : Progress ω) (Cursor.ofText text.toList)
  refine ⟨failures, ?_, hincreasing, fun failure hfailure => ?_⟩
  · simp only [readGrammar, readAssignments, hreports, List.nil_append, List.filterMap_append,
      filterMap_position?_report, filterMap_position?_inlineLocals, List.append_nil]
  · obtain ⟨count, hcount⟩ := (hwithin failure hfailure).1
    rw [Cursor.forward_min] at hcount
    exact ⟨_, Nat.min_le_right _ _, by rw [hcount, Cursor.position_forward]; rfl⟩

-- Every turn that does not start at the end of the text moves the cursor on,
-- so the end is reached, and no bound is. What could not be read is reported
-- on lines that increase, where a character or the end of the text stands.
theorem readGrammar_ends (compile : Compiler) (text : String) :
    (∀ (progress : Progress ω) (cursor : Cursor), cursor.rest ≠ [] →
      ∃ count, 0 < count ∧ count ≤ cursor.rest.length ∧
        (readTurn compile progress cursor).2 = cursor.forward count) ∧
    (∃ turns ≤ text.toList.length, ∃ left, left.rest = [] ∧
      (turn compile)^[turns] (⟨Grammar.empty, []⟩, Cursor.ofText text.toList) =
        ((readAssignments compile text.toList : Progress ω), left)) ∧
    (∀ (progress : Progress ω) (cursor : Cursor) (few many : Nat), cursor.rest.length ≤ few →
      few ≤ many → readTurns compile few progress cursor = readTurns compile many progress cursor) ∧
    BoundsSuffice ω compile ∧
    ((readGrammar compile text : Grammar ω × _).2.filterMap Diagnostic.position?).Pairwise
      (·.line < ·.line) ∧
    ((readGrammar compile text : Grammar ω × _).2.filterMap Diagnostic.position?).length ≤
      text.toList.count '\n' + 1 ∧
    ∀ position ∈ (readGrammar compile text : Grammar ω × _).2.filterMap Diagnostic.position?,
      ∃ count ≤ text.toList.length, position = Position.start.after (text.toList.take count) := by
  obtain ⟨failures, hpositions, hincreasing, hplace⟩ := exists_failures (ω := ω) compile text
  have hlines : ∀ failure ∈ failures, 1 ≤ failure.cursor.position.line ∧
      failure.cursor.position.line ≤ 1 + text.toList.count '\n' := by
    intro failure hfailure
    obtain ⟨count, _, hposition⟩ := hplace failure hfailure
    have hle := (List.take_sublist count text.toList).count_le '\n'
    rw [hposition, Position.line_after]
    dsimp only [Position.start]
    omega
  have hend := atEnd_iterate compile text.toList.length
    ((⟨Grammar.empty, []⟩, Cursor.ofText text.toList) : Progress ω × Cursor) (Nat.le_refl _)
  refine ⟨readTurn_moves compile, ⟨text.toList.length, Nat.le_refl _, _, List.isEmpty_iff.mp hend,
    Prod.ext (readTurns_eq_iterate compile _ _ _).symm rfl⟩,
    fun progress cursor few many => readTurns_of_le compile few many progress cursor,
    boundsSuffice ω compile, ?_, ?_, ?_⟩
  · rw [hpositions]
    exact List.pairwise_map.mpr hincreasing
  · rw [hpositions, List.length_map, ← List.length_map (·.cursor.position.line)]
    exact length_le_of_increasing _ 1 _ (List.pairwise_map.mpr hincreasing)
      (List.forall_mem_map.mpr hlines)
  · rw [hpositions]
    exact List.forall_mem_map.mpr hplace

-- Every directive is refused.
def refused : Compiler := fun _ _ _ => .error "refused"

-- Three assignments, of which the last one can be read, and a line that is
-- none.
def brokenLines : String := "c=\n\nd=\"z\"~/p/q/\n?\ne:=\"w\""

example : (readGrammar refused brokenLines : Grammar Rat × _).2 =
    [.unreadable 2 1 .textExpected, .unreadable 3 12 (.refusedSubstitution "refused"),
      .unreadable 4 1 .nameExpected] := by
  decide +kernel

end Reading

end PhraseGrammar
