import PhraseGrammar.Proofs.Reading.Turns

namespace PhraseGrammar

-- The same report of a text that stands a number of lines below.
def Diagnostic.below (lines : Nat) : Diagnostic → Diagnostic
  | .unreadable line column cause => .unreadable (line + lines) column cause
  | diagnostic => diagnostic

namespace Grammar

variable {ω : Type}

-- The grammar with other assignments before its own.
def preceded (before : List (Assignment ω)) (grammar : Grammar ω) : Grammar ω :=
  { grammar with assignments := before ++ grammar.assignments }

@[simp] theorem names_preceded (before : List (Assignment ω)) (grammar : Grammar ω) :
    (grammar.preceded before).names = before.map Assignment.name ++ grammar.names :=
  List.map_append

end Grammar

namespace Reading

def Position.below (lines : Nat) (position : Position) : Position :=
  ⟨position.line + lines, position.column⟩

@[simp] theorem Position.after_below (lines : Nat) (position : Position) (text : List Char) :
    (position.below lines).after text = (position.after text).below lines := by
  induction text generalizing position with
  | nil => rfl
  | cons character rest ih =>
      have hnext : (position.below lines).next character =
          (position.next character).below lines := by
        by_cases h : character = '\n' <;> simp [next, below, h, Nat.add_right_comm]
      rw [after, List.foldl_cons, hnext, ← after, ih]
      rfl

def Cursor.below (lines : Nat) (cursor : Cursor) : Cursor :=
  ⟨cursor.rest, cursor.position.below lines⟩

@[simp] theorem Cursor.forward_below (lines count : Nat) (cursor : Cursor) :
    forward count (cursor.below lines) = (forward count cursor).below lines := by
  obtain ⟨text, position⟩ := cursor
  simp [below, forward_eq]

variable {α : Type}

def Failure.below (lines : Nat) (failure : Failure) : Failure :=
  ⟨failure.cause, failure.cursor.below lines⟩

-- A reader does the same further below.
theorem Advances.ok_below {reader : Reader α} (h : Advances reader) (lines : Nat)
    {cursor left : Cursor} {value : α} (hread : reader cursor = .ok (value, left)) :
    reader (cursor.below lines) = .ok (value, left.below lines) := by
  obtain ⟨text, position⟩ := cursor
  obtain ⟨count, ⟨other, hother⟩ | ⟨cause, hcause⟩⟩ := h text
  · rw [hother] at hread
    cases hread
    rw [← Cursor.forward_below]
    exact hother _
  · rw [hcause] at hread
    exact nomatch hread

theorem Advances.error_below {reader : Reader α} (h : Advances reader) (lines : Nat)
    {cursor : Cursor} {failure : Failure} (hread : reader cursor = .error failure) :
    reader (cursor.below lines) = .error (failure.below lines) := by
  obtain ⟨text, position⟩ := cursor
  obtain ⟨count, ⟨other, hother⟩ | ⟨cause, hcause⟩⟩ := h text
  · rw [hother] at hread
    exact nomatch hread
  · rw [hcause] at hread
    cases hread
    rw [Failure.below, ← Cursor.forward_below]
    exact hcause _

variable {ω : Type} [Weight ω] (compile : Compiler)

@[simp] theorem Cursor.recover_below (lines : Nat) (cursor : Cursor) :
    (cursor.below lines).recover = cursor.recover.below lines :=
  Cursor.forward_below lines _ cursor

-- What has been read, further below and after other assignments.
def Progress.placed (before : List (Assignment ω)) (lines : Nat) (progress : Progress ω) :
    Progress ω :=
  ⟨progress.grammar.preceded before, progress.reports.map (Diagnostic.below lines)⟩

-- A turn does not hang on where it stands, nor on assignments of other names.
theorem readTurn_placed (before : List (Assignment ω)) (lines : Nat) (progress : Progress ω)
    (cursor : Cursor)
    (hnames : ∀ name ∈ (readTurn compile progress cursor).1.grammar.names,
      name ∉ before.map Assignment.name) :
    readTurn compile (progress.placed before lines) (cursor.below lines) =
      ((readTurn compile progress cursor).1.placed before lines,
        (readTurn compile progress cursor).2.below lines) := by
  have hadvances := advances_readAssignment (ω := ω) compile
  have hcases := readsInto compile progress.grammar cursor
  rw [readTurn] at hnames ⊢
  rw [readTurn]
  generalize readInto compile progress.grammar cursor = result at hcases hnames ⊢
  cases hcases with
  | nothing left hread =>
      rw [readInto_of_none (hadvances.ok_below lines hread)]
  | added assignment left hread hname =>
      have hnew : assignment.name ∉ (progress.placed before lines).grammar.names := by
        have hother := hnames assignment.name (by simp [Grammar.names])
        rw [Progress.placed, Grammar.names_preceded, List.mem_append]
        exact not_or.mpr ⟨hother, hname⟩
      rw [readInto_of_new assignment (hadvances.ok_below lines hread) hnew]
      simp only [Progress.placed, Grammar.preceded, List.append_assoc]
  | assigned assignment left hread hname =>
      have hold : assignment.name ∈ (progress.placed before lines).grammar.names := by
        rw [Progress.placed, Grammar.names_preceded]
        exact List.mem_append_right _ hname
      rw [readInto_of_assigned assignment (hadvances.ok_below lines hread) hold]
      simp only [Progress.placed, List.map_append, Cursor.recover_below]
      rfl
  | failed failure hread =>
      rw [readInto_of_error _ (hadvances.error_below lines hread)]
      simp only [Progress.placed, List.map_append, Failure.below, Cursor.recover_below]
      rfl

-- A turn adds one assignment at most.
theorem readTurn_grammar (progress : Progress ω) (cursor : Cursor) :
    (readTurn compile progress cursor).1.grammar = progress.grammar ∨
      ∃ added, (readTurn compile progress cursor).1.grammar =
        { progress.grammar with
          assignments := progress.grammar.assignments ++ [added], start := none } := by
  have hcases := readsInto compile progress.grammar cursor
  rw [readTurn]
  generalize readInto compile progress.grammar cursor = result at hcases ⊢
  cases hcases with
  | added assignment => exact .inr ⟨_, rfl⟩
  | _ => exact .inl rfl

theorem names_readTurns (turns : Nat) (progress : Progress ω) (cursor : Cursor) :
    progress.grammar.names ⊆ (readTurns compile turns progress cursor).grammar.names := by
  refine readTurns_induction compile
    (motive := fun later => progress.grammar.names ⊆ later.grammar.names)
    (fun next cursor hnames => List.Subset.trans hnames ?_) turns progress cursor
    (List.Subset.refl _)
  rcases readTurn_grammar compile next cursor with hsame | ⟨added, hadded⟩
  · rw [hsame]
    exact List.Subset.refl _
  · rw [hadded, Grammar.names, Grammar.names, List.map_append]
    exact List.subset_append_left _ _

-- What is read is not bound.
theorem readTurns_unbound (turns : Nat) (progress : Progress ω) (cursor : Cursor)
    (h : progress.grammar.start = none) :
    (readTurns compile turns progress cursor).grammar.start = none ∧
      (readTurns compile turns progress cursor).grammar.passes = progress.grammar.passes := by
  refine readTurns_induction compile
    (motive := fun later => later.grammar.start = none ∧
      later.grammar.passes = progress.grammar.passes)
    (fun next cursor hnext => ?_) turns progress cursor ⟨h, rfl⟩
  rcases readTurn_grammar compile next cursor with hsame | ⟨added, hadded⟩
  · rw [hsame]
    exact hnext
  · rw [hadded]
    exact ⟨rfl, hnext.2⟩

-- Neither does a whole run.
theorem readTurns_placed (before : List (Assignment ω)) (lines turns : Nat)
    (progress : Progress ω) (cursor : Cursor)
    (hnames : ∀ name ∈ (readTurns compile turns progress cursor).grammar.names,
      name ∉ before.map Assignment.name) :
    readTurns compile turns (progress.placed before lines) (cursor.below lines) =
      (readTurns compile turns progress cursor).placed before lines := by
  induction turns generalizing progress cursor with
  | zero => rfl
  | succ turns ih =>
      rw [readTurns] at hnames ⊢
      rw [readTurns]
      by_cases hend : cursor.atEnd
      · rw [if_pos hend, if_pos (show (cursor.below lines).atEnd from hend)]
      · rw [if_neg hend] at hnames ⊢
        rw [if_neg (show ¬ (cursor.below lines).atEnd from hend)]
        have hturn := readTurn_placed compile before lines progress cursor fun name hname =>
          hnames name (names_readTurns compile turns _ _ hname)
        rw [hturn]
        exact ih _ _ hnames

end Reading

end PhraseGrammar
