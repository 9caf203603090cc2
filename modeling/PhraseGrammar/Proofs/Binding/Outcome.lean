import PhraseGrammar.Proofs.Binding.Layers
import PhraseGrammar.Proofs.Binding.Pass

namespace PhraseGrammar.Grammar

variable {ω : Type}

-- What holds of a grammar between two passes: each name is assigned once, no
-- rule is being bound, and no mark is later than the last pass.
structure Settled (grammar : Grammar ω) : Prop where
  nodup : grammar.names.Nodup
  marks (assignment : Assignment ω) (hassignment : assignment ∈ grammar.assignments) :
    assignment.rule.mark ≠ .inProgress ∧
      ∀ pass, assignment.rule.mark = .bound pass → pass ≤ grammar.passes

section NextPass

variable (grammar : Grammar ω)

@[simp] theorem names_nextPass : grammar.nextPass.names = grammar.names := by
  unfold nextPass
  split
  · simp [names, Function.comp_def]
  · rfl

@[simp] theorem indexOf?_nextPass (name : String) :
    grammar.nextPass.indexOf? name = grammar.indexOf? name := by
  simp [indexOf?]

-- The mark of a rule in the next pass. After the last pass it is taken off.
def nextMark (rule : Rule ω) : Mark :=
  if grammar.passes = lastPass then .unbound else rule.mark

@[simp] theorem ruleAt?_nextPass (index : Nat) :
    grammar.nextPass.ruleAt? index =
      (grammar.ruleAt? index).map fun rule => rule.marked (grammar.nextMark rule) := by
  by_cases h : grammar.passes = lastPass
  · simp [nextPass, nextMark, ruleAt?, Function.comp_def, h]
  · simp [nextPass, nextMark, ruleAt?, Function.comp_def, h]

@[simp] theorem rule?_nextPass (name : String) :
    grammar.nextPass.rule? name =
      (grammar.rule? name).map fun rule => rule.marked (grammar.nextMark rule) := by
  rw [rule?, rule?, indexOf?_nextPass]
  cases grammar.indexOf? name with
  | none => rfl
  | some index => exact grammar.ruleAt?_nextPass index

@[simp] theorem refers_nextPass : grammar.nextPass.Refers = grammar.Refers := by
  funext name other
  simp [Refers]

-- No mark of an earlier pass is taken for one of the next.
theorem Settled.fresh_nextPass (h : grammar.Settled) : grammar.nextPass.Fresh := by
  intro index rule hrule
  rw [ruleAt?_nextPass] at hrule
  obtain ⟨old, hold, rfl⟩ := Option.map_eq_some_iff.mp hrule
  obtain ⟨assignment, hassignment, rfl⟩ := Option.map_eq_some_iff.mp hold
  obtain ⟨hopen, hpast⟩ := h.marks assignment (List.mem_of_getElem? hassignment)
  by_cases hlast : grammar.passes = lastPass
  · simp [nextMark, hlast]
  · simp only [Rule.mark_marked, nextMark, nextPass, hlast, if_false]
    refine ⟨hopen, fun hmark => ?_⟩
    have := hpast _ hmark
    omega

theorem Settled.nextPass (h : grammar.Settled) : grammar.nextPass.Settled where
  nodup := grammar.names_nextPass ▸ h.nodup
  marks := by
    unfold Grammar.nextPass
    split
    · intro assignment hassignment
      obtain ⟨old, _, rfl⟩ := List.mem_map.mp hassignment
      simp
    · intro assignment hassignment
      obtain ⟨hopen, hpast⟩ := h.marks assignment hassignment
      exact ⟨hopen, fun pass hmark => Nat.le_succ_of_le (hpast pass hmark)⟩

end NextPass

-- Every finished rule takes the place of the one that it was bound from.
def adopt (grammar : Grammar ω) (finished : List (String × Rule ω)) : List (Assignment ω) :=
  grammar.assignments.map fun assignment =>
    { assignment with rule := (finished.lookup assignment.name).getD assignment.rule }

variable (grammar : Grammar ω)

theorem Agrees.assignments_eq (trail : Trail ω) (pass : BindingPass ω)
    (hnodup : grammar.names.Nodup) (h : grammar.Agrees [] trail pass) :
    pass.assignments = grammar.adopt trail.finished := by
  have hlength : pass.assignments.length = grammar.assignments.length := by
    rw [← grammar.length_names, ← h.names, List.length_map]
  apply List.ext_getElem
  · rw [hlength, adopt, List.length_map]
  intro index hpass _
  have hlt : index < grammar.assignments.length := hlength ▸ hpass
  have hname : pass.assignments[index].name = grammar.assignments[index].name := by
    have := congrArg (·[index]?) h.names
    simpa [Grammar.names, hpass, hlt] using this
  have hplace : grammar.indexOf? grammar.assignments[index].name = some index :=
    grammar.indexOf?_of_nameAt? hnodup _ _ (by simp [nameAt?, Grammar.names, hlt])
  have hrule : pass.assignments[index].rule =
      (trail.finished.lookup grammar.assignments[index].name).getD
        grammar.assignments[index].rule := by
    cases hfinished : trail.finished.lookup grammar.assignments[index].name with
    | some rule =>
        obtain ⟨hr, _⟩ := h.finished _ index rule List.not_mem_nil hplace hfinished
        simpa [BindingPass.ruleAt?, hpass] using hr
    | none =>
        have hr := h.untouched _ index List.not_mem_nil hplace hfinished
        simpa [BindingPass.ruleAt?, ruleAt?, hpass, hlt] using hr
  rw [← hname] at hrule
  simp only [adopt, List.getElem_map, ← hname, ← hrule]

variable [Weight ω]

-- Binding to an assigned name is a walk from it. What the walk has finished is
-- put into place, and the name becomes the start if there are no reports.
theorem bind_walk (h : grammar.Settled) (start : String) (index : Nat)
    (hstart : grammar.indexOf? start = some index) :
    ∃ given last,
      grammar.nextPass.Walk [] [start] Trail.empty given last ∧
      grammar.bind start =
        (⟨grammar.nextPass.adopt last.finished,
          if last.reports.isEmpty then some index else none, grammar.nextPass.passes⟩,
          last.reports) := by
  have hnext : grammar.nextPass.indexOf? start = some index :=
    (grammar.indexOf?_nextPass start).trans hstart
  obtain ⟨rule, _, hrule⟩ := grammar.nextPass.exists_ruleAt?_of_indexOf? start index hnext
  have hnodup : grammar.nextPass.names.Nodup := grammar.names_nextPass ▸ h.nodup
  have hagrees : grammar.nextPass.Agrees [] Trail.empty ⟨grammar.nextPass.assignments, []⟩ :=
    ⟨rfl, rfl, by simp, by simp, fun _ _ _ _ _ => rfl⟩
  obtain ⟨inner, middle, pass, hinner, hvisit, hpass⟩ :=
    grammar.nextPass.exists_visit h.fresh_nextPass grammar.nextPass.assignments.length []
      List.nodup_nil (List.nil_subset _) (Nat.le_add_right _ _) start index rule Trail.empty _
      hagrees hnext hrule List.not_mem_nil rfl
  refine ⟨_, _, .visit _ _ _ _ _ _ _ _ index rule hnext hrule List.not_mem_nil rfl hinner
    (.nil _ _), ?_⟩
  simp only [bind, hstart, hvisit, hpass.assignments_eq _ _ _ hnodup, hpass.reports]

variable {grammar} {path names : List String} {trail last : Trail ω}
  {given : List (Option (Nat × Tally ω))}

-- What a walk finishes is marked with its pass.
theorem Walk.marks (h : grammar.Walk path names trail given last)
    (htrail : ∀ entry ∈ trail.finished, entry.2.mark = .bound grammar.passes) :
    ∀ entry ∈ last.finished, entry.2.mark = .bound grammar.passes := by
  induction h with
  | nil => exact htrail
  | unassigned _ _ _ _ _ _ _ _ ih => exact ih htrail
  | finished _ _ _ _ _ _ _ _ _ _ _ ih => exact ih htrail
  | cycle _ _ _ _ _ _ _ _ _ _ ih => exact ih htrail
  | visit _ _ _ _ _ _ _ _ _ _ _ _ _ _ _ _ ihinner ihrest =>
      exact ihrest (List.forall_mem_cons.mpr ⟨rfl, ihinner htrail⟩)

variable (grammar)

omit [Weight ω] in
@[simp] theorem names_adopt (finished : List (String × Rule ω)) :
    (grammar.adopt finished).map Assignment.name = grammar.names := by
  simp [adopt, Grammar.names, Function.comp_def]

theorem names_bind (start : String) (h : grammar.Settled) :
    (grammar.bind start).1.names = grammar.names := by
  cases hstart : grammar.indexOf? start with
  | none => simp only [bind, hstart, Grammar.names]
  | some index =>
      obtain ⟨given, last, _, hbind⟩ := grammar.bind_walk h start index hstart
      rw [hbind, Grammar.names, names_adopt, names_nextPass]

-- A pass leaves no rule that is being bound, and marks with its own number.
theorem Settled.bind (h : grammar.Settled) (start : String) : (grammar.bind start).1.Settled where
  nodup := grammar.names_bind start h ▸ h.nodup
  marks := by
    cases hstart : grammar.indexOf? start with
    | none => simpa only [Grammar.bind, hstart] using h.marks
    | some index =>
        obtain ⟨given, last, hwalk, hbind⟩ := grammar.bind_walk h start index hstart
        have hmarks := hwalk.marks (by simp)
        rw [hbind]
        intro assignment hassignment
        obtain ⟨old, hold, rfl⟩ := List.mem_map.mp hassignment
        cases hfinished : last.finished.lookup old.name with
        | some rule =>
            have hmark : rule.mark = .bound grammar.nextPass.passes :=
              hmarks _ (mem_of_lookup _ _ _ hfinished)
            rw [Option.getD_some, hmark]
            exact ⟨nofun, fun pass he => Nat.le_of_eq (Mark.bound.inj he).symm⟩
        | none => exact h.nextPass.marks old hold

end PhraseGrammar.Grammar
