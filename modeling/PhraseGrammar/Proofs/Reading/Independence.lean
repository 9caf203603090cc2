import PhraseGrammar.Proofs.Reading.Placement
import PhraseGrammar.Proofs.Reading.Reports
import PhraseGrammar.Proofs.Reading.RuleExtension

namespace PhraseGrammar.Reading

variable {ω : Type} [Weight ω] (compile : Compiler)

section Assignments

variable {compile}

-- An assignment that the end of a text ends is ended by a newline, too.
theorem readAssignment_extended (more : List Char) (cursor left : Cursor)
    (assignment : Assignment ω)
    (h : readAssignment compile cursor = .ok (some assignment, left)) :
    readAssignment compile (cursor.extended ('\n' :: more)) =
      .ok (some assignment, left.extended ('\n' :: more)) := by
  rw [readAssignment_eq] at h ⊢
  obtain ⟨_, ⟨text, position⟩, hblanks, hread⟩ := bind_eq_ok h
  cases text with
  | nil => exact nomatch hread
  | cons character rest =>
      have hpending : Pending ('\n' :: more) (character :: rest) :=
        ⟨List.cons_ne_nil character rest, .inl rfl⟩
      rw [bind_of_ok ((extends_skipBlanks_pending true cursor () _ hblanks).2 hpending)]
      exact (extends_readNamed compile _ _ _ hread).2 (.inl rfl)

-- Where there is none, there are blanks only.
theorem readAssignment_blank (text rest : List Char) (position : Position) (left : Cursor)
    (h : readAssignment compile ⟨text, position⟩ = .ok ((none : Option (Assignment ω)), left)) :
    (readAssignment compile : Reader (Option (Assignment ω))) ⟨text ++ rest, position⟩ =
      readAssignment compile ⟨rest, left.position⟩ := by
  rw [readAssignment_eq] at h ⊢
  obtain ⟨_, ⟨after, middle⟩, hblanks, hread⟩ := bind_eq_ok h
  cases after with
  | nil =>
      cases hread
      exact bind_at (skipBlanks_append true text rest position middle hblanks)
  | cons character after =>
      exact absurd rfl (ensures_readNamed compile _ _ _ hread).2

end Assignments

-- Reads on to the end of the text.
def readOn (progress : Progress ω) (cursor : Cursor) : Progress ω :=
  readTurns compile cursor.rest.length progress cursor

@[simp] theorem readOn_nil (progress : Progress ω) (position : Position) :
    readOn compile progress ⟨[], position⟩ = progress :=
  rfl

theorem readOn_turn (progress : Progress ω) (cursor : Cursor) (hsome : cursor.rest ≠ []) :
    readOn compile progress cursor =
      readOn compile (readTurn compile progress cursor).1 (readTurn compile progress cursor).2 := by
  obtain ⟨count, hpositive, hle, hcount⟩ := readTurn_moves compile progress cursor hsome
  obtain ⟨less, hless⟩ := Nat.exists_eq_add_of_le' (Nat.le_trans hpositive hle)
  have hend : ¬ cursor.atEnd := fun hend => hsome (List.isEmpty_iff.mp hend)
  have hlength : (readTurn compile progress cursor).2.rest.length ≤ less := by
    rw [hcount, Cursor.rest_forward, List.length_drop]
    omega
  rw [readOn, hless, readTurns, if_neg hend]
  exact (readTurns_of_le compile _ less _ _ (Nat.le_refl _) hlength).symm

theorem readOn_of_ok (grammar : Grammar ω) (reports : List Diagnostic) (next : Grammar ω)
    (cursor left : Cursor) (hsome : cursor.rest ≠ [])
    (hread : readInto compile grammar cursor = .ok (next, left)) :
    readOn compile ⟨grammar, reports⟩ cursor = readOn compile ⟨next, reports⟩ left := by
  rw [readOn_turn compile _ _ hsome, readTurn, hread]

-- What is read on hangs on what the next turn reads.
theorem readOn_congr (progress : Progress ω) (cursor other : Cursor) (hsome : cursor.rest ≠ [])
    (hread : readInto compile progress.grammar cursor = readInto compile progress.grammar other) :
    readOn compile progress cursor = readOn compile progress other := by
  have hturn : readTurn compile progress cursor = readTurn compile progress other := by
    rw [readTurn, readTurn, hread]
  obtain ⟨rest, position⟩ := other
  cases rest with
  | nil =>
      obtain ⟨grammar, reports⟩ := progress
      exact readOn_of_ok compile grammar reports grammar cursor _ hsome hread
  | cons character rest =>
      rw [readOn_turn compile _ _ hsome, hturn, ← readOn_turn compile _ _ (List.cons_ne_nil _ _)]

@[simp] theorem readOn_newline (progress : Progress ω) (more : List Char) (position : Position) :
    readOn compile progress ⟨'\n' :: more, position⟩ =
      readOn compile progress ⟨more, position.next '\n'⟩ :=
  readOn_congr compile progress _ _ (List.cons_ne_nil _ _)
    (bind_at (bind_at (skipBlanks_append true ['\n'] more position _ rfl)))

theorem reports_readOn (progress : Progress ω) (cursor : Cursor) :
    progress.reports <+: (readOn compile progress cursor).reports := by
  obtain ⟨failures, hreports, -⟩ := readTurns_failures compile cursor.rest.length progress cursor
  exact ⟨_, hreports.symm⟩

-- A text that is read without reports may be read first, up to the newline
-- that comes after it.
theorem readOn_append (text more : List Char) (position : Position) (progress : Progress ω)
    (hclean : (readOn compile progress ⟨text, position⟩).reports = progress.reports) :
    readOn compile progress ⟨text ++ '\n' :: more, position⟩ =
      readOn compile (readOn compile progress ⟨text, position⟩)
        ⟨more, (position.after text).next '\n'⟩ := by
  induction hlength : text.length using Nat.strongRecOn generalizing text position progress with
  | ind length ih =>
      obtain ⟨grammar, reports⟩ := progress
      by_cases hnil : text = []
      · subst hnil
        exact readOn_newline compile _ more position
      have hlong : text ++ '\n' :: more ≠ [] := by simp
      have hcases := readsInto compile grammar ⟨text, position⟩
      cases hinto : readInto compile grammar ⟨text, position⟩ with
      | error failure =>
          have hprefix := reports_readOn compile ⟨grammar, reports ++ [failure.report]⟩
            failure.cursor.recover
          rw [readOn_turn compile _ _ hnil, readTurn, hinto] at hclean
          dsimp only at hclean
          have hle := (hclean ▸ hprefix).length_le
          rw [List.length_append] at hle
          exact absurd hle (Nat.not_succ_le_self _)
      | ok read =>
          obtain ⟨next, left⟩ := read
          rw [hinto] at hcases
          have hshort := readOn_of_ok compile grammar reports next ⟨text, position⟩ left hnil hinto
          have hposition := (advances_readInto compile grammar).after_eq hinto
          rw [hshort] at hclean ⊢
          rw [← hposition]
          cases hcases with
          | nothing _ hread =>
              have hend : left.rest = [] := (ensures_readAssignment compile _ _ _ hread).2 rfl
              obtain ⟨rest, after⟩ := left
              obtain rfl : rest = [] := hend
              rw [readOn_nil, readOn_congr compile _ _ ⟨'\n' :: more, after⟩ hlong
                (bind_at (readAssignment_blank text _ position _ hread)), readOn_newline]
              rfl
          | added assignment _ hread hname =>
              obtain ⟨count, hpositive, _, hcount⟩ :=
                readTurn_moves compile ⟨grammar, reports⟩ ⟨text, position⟩ hnil
              rw [readTurn, hinto] at hcount
              have hpositive' := List.length_pos_iff.mpr hnil
              have hshorter : left.rest.length < length := by
                rw [show left = _ from hcount, Cursor.rest_forward, List.length_drop]
                change text.length - count < length
                omega
              have hextended := readAssignment_extended more ⟨text, position⟩ left assignment hread
              have hlonger := readOn_of_ok compile grammar reports _ _ _ hlong
                (readInto_of_new assignment hextended hname)
              exact hlonger.trans (ih _ hshorter left.rest left.position _ hclean rfl)

theorem after_newline (text : List Char) :
    (Position.start.after text).next '\n' = Position.start.below (1 + text.count '\n') := by
  have hline := Position.line_after Position.start text
  rw [Position.next, if_pos rfl, hline, Position.below, Position.start]
  simp only [Position.mk.injEq, and_true]
  omega

theorem readAssignments_unbound (text : List Char) :
    (readAssignments compile text : Progress ω).grammar =
      ⟨(readAssignments compile text : Progress ω).grammar.assignments, none, 0⟩ := by
  obtain ⟨hstart, hpasses⟩ : (readAssignments compile text : Progress ω).grammar.start = none ∧
      (readAssignments compile text : Progress ω).grammar.passes = 0 :=
    readTurns_unbound compile text.length ⟨Grammar.empty, []⟩ (Cursor.ofText text) rfl
  rw [← hstart, ← hpasses]

-- What is read of two texts, the first one without reports.
theorem readAssignments_append (first second : List Char)
    (hclean : (readAssignments compile first : Progress ω).reports = [])
    (hnames : ∀ name ∈ (readAssignments compile second : Progress ω).grammar.names,
      name ∉ (readAssignments compile first : Progress ω).grammar.names) :
    (readAssignments compile (first ++ '\n' :: second) : Progress ω) =
      (readAssignments compile second).placed
        (readAssignments compile first : Progress ω).grammar.assignments
        (1 + first.count '\n') := by
  have hplaced : (readAssignments compile first : Progress ω) =
      (⟨Grammar.empty, []⟩ : Progress ω).placed
        (readAssignments compile first : Progress ω).grammar.assignments
        (1 + first.count '\n') := by
    have hgrammar := readAssignments_unbound (ω := ω) compile first
    rcases hfirst : (readAssignments compile first : Progress ω) with ⟨grammar, reports⟩
    rw [hfirst] at hclean hgrammar
    obtain rfl : reports = [] := hclean
    rw [Progress.placed, Grammar.preceded, Grammar.empty, List.append_nil, ← hgrammar]
    rfl
  calc (readAssignments compile (first ++ '\n' :: second) : Progress ω)
      = readOn compile (readAssignments compile first)
          ⟨second, Position.start.below (1 + first.count '\n')⟩ := by
        rw [← after_newline]
        exact readOn_append compile first second Position.start ⟨Grammar.empty, []⟩ hclean
    _ = readOn compile ((⟨Grammar.empty, []⟩ : Progress ω).placed
            (readAssignments compile first : Progress ω).grammar.assignments
            (1 + first.count '\n'))
          ⟨second, Position.start.below (1 + first.count '\n')⟩ :=
        congrArg (readOn compile · _) hplaced
    _ = _ := readTurns_placed compile _ _ second.length ⟨Grammar.empty, []⟩ (Cursor.ofText second)
        hnames

-- A text that is read without reports, and another one from the next line on.
-- If they assign different names, and none that is local or refers to a local
-- one, what is read is the assignments of the one and then of the other, and
-- what is reported is what the other one reports, that many lines below.
theorem readGrammar_append (first second : String)
    (hnames : ∀ name ∈ (readAssignments compile second.toList : Progress ω).grammar.names,
      name ∉ (readAssignments compile first.toList : Progress ω).grammar.names)
    (hfirst : (readAssignments compile first.toList : Progress ω).grammar.LocalFree)
    (hsecond : (readAssignments compile second.toList : Progress ω).grammar.LocalFree)
    (hclean : (readGrammar compile first : Grammar ω × _).2 = []) :
    (readGrammar compile (first ++ "\n" ++ second) : Grammar ω × _) =
      (⟨(readGrammar compile first).1.assignments ++ (readGrammar compile second).1.assignments,
          none, 0⟩,
        (readGrammar compile second : Grammar ω × _).2.map
          (Diagnostic.below (1 + first.toList.count '\n'))) := by
  have htext : (first ++ "\n" ++ second).toList = first.toList ++ '\n' :: second.toList := by
    simp [String.toList_append]
  have hreports : (readAssignments compile first.toList : Progress ω).reports = [] :=
    (List.append_eq_nil_iff.mp hclean).1
  have hboth := readAssignments_append compile first.toList second.toList hreports hnames
  have hlocal : ((readAssignments compile second.toList : Progress ω).placed
      (readAssignments compile first.toList : Progress ω).grammar.assignments
      (1 + first.toList.count '\n')).grammar.LocalFree :=
    List.forall_mem_append.mpr ⟨hfirst, hsecond⟩
  have hunbound := readAssignments_unbound (ω := ω) compile second.toList
  simp only [readGrammar, htext, hboth, hlocal.inlineLocals, hfirst.inlineLocals,
    hsecond.inlineLocals, List.append_nil]
  rw [Progress.placed, Grammar.preceded, hunbound]

def cleanLines : String := "a=\"x\"|\x7bb\x7d\nb 2=y"

theorem readGrammar_brokenAfterClean :
    (readGrammar refused (cleanLines ++ "\n" ++ brokenLines) : Grammar Rat × _).1.names =
        ["a", "b", "e"] ∧
      (readGrammar refused (cleanLines ++ "\n" ++ brokenLines) : Grammar Rat × _).2 =
        [.unreadable 4 1 .textExpected, .unreadable 5 12 (.refusedSubstitution "refused"),
          .unreadable 6 1 .nameExpected] := by
  have hfirst : (readAssignments refused cleanLines.toList : Progress Rat).grammar.LocalFree := by
    unfold Grammar.LocalFree
    decide +kernel
  have hsecond : (readAssignments refused brokenLines.toList : Progress Rat).grammar.LocalFree := by
    unfold Grammar.LocalFree
    decide +kernel
  have happend := readGrammar_append (ω := Rat) refused cleanLines brokenLines (by decide +kernel)
    hfirst hsecond (by decide +kernel)
  rw [happend]
  exact ⟨by decide +kernel, by decide +kernel⟩

end PhraseGrammar.Reading
