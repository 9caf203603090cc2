import PhraseGrammar.Grammar.Inlining
import PhraseGrammar.Proofs.Binding.Outcome

namespace PhraseGrammar

variable {ω : Type} [Weight ω]

namespace Grammar

-- The grammars that can be made. A copy of a grammar is the grammar, and a
-- cleared one is empty.
inductive Reachable : Grammar ω → Prop
  | empty : Reachable empty
  | insert (grammar : Grammar ω) (name : String) (rule : Rule ω) (h : Reachable grammar) :
      Reachable (grammar.insert name rule).1
  | merge (grammar other : Grammar ω) (h : Reachable grammar) (hother : Reachable other) :
      Reachable (grammar.merge other).1
  | inlineLocals (grammar : Grammar ω) (h : Reachable grammar) : Reachable grammar.inlineLocals.1
  | bind (grammar : Grammar ω) (start : String) (h : Reachable grammar) :
      Reachable (grammar.bind start).1

section Steps

omit [Weight ω]

@[simp] theorem mark_unlinked (rule : Rule ω) : rule.unlinked.mark = .unbound := by
  cases rule
  rfl

theorem nodup_append_singleton (names : List String) (name : String) (h : names.Nodup)
    (hname : name ∉ names) : (names ++ [name]).Nodup := by
  refine List.nodup_append.mpr ⟨h, List.pairwise_singleton _ _, ?_⟩
  rintro other hother _ hlast rfl
  exact hname (List.mem_singleton.mp hlast ▸ hother)

theorem Settled.insert (grammar : Grammar ω) (h : grammar.Settled) (name : String) (rule : Rule ω) :
    (grammar.insert name rule).1.Settled := by
  cases hname : grammar.indexOf? name with
  | some index =>
      simp only [Grammar.insert, hname]
      exact ⟨h.nodup, h.marks⟩
  | none =>
      simp only [Grammar.insert, hname]
      constructor
      · simp only [names, List.map_append, List.map_cons, List.map_nil]
        exact nodup_append_singleton _ _ h.nodup ((grammar.indexOf?_eq_none_iff name).mp hname)
      · intro assignment hassignment
        rcases List.mem_append.mp hassignment with hold | hadded
        · exact h.marks assignment hold
        · rw [List.mem_singleton.mp hadded, mark_unlinked]
          exact ⟨by simp, by simp⟩

-- Overwriting leaves the names that are there, and adds a new one at the end.
theorem names_overwrite (assignments : List (Assignment ω)) (assignment : Assignment ω) :
    (overwrite assignments assignment).1.map Assignment.name =
      if assignment.name ∈ assignments.map Assignment.name then assignments.map Assignment.name
      else assignments.map Assignment.name ++ [assignment.name] := by
  cases hplace : assignments.findIdx? (·.name == assignment.name) with
  | some index =>
      obtain ⟨hlt, hname, _⟩ := List.findIdx?_eq_some_iff_getElem.mp hplace
      have hsame : assignments[index].name = assignment.name := eq_of_beq hname
      have hmem : assignment.name ∈ assignments.map Assignment.name :=
        hsame ▸ List.mem_map_of_mem (List.getElem_mem hlt)
      rw [if_pos hmem]
      simp only [overwrite, hplace, List.map_set]
      apply List.ext_getElem?
      intro other
      rw [List.getElem?_set]
      by_cases he : index = other
      · subst he
        simp [hlt, hsame]
      · rw [if_neg he]
  | none =>
      have hnone := List.findIdx?_eq_none_iff.mp hplace
      have hmem : assignment.name ∉ assignments.map Assignment.name := by
        intro hm
        obtain ⟨old, hold, he⟩ := List.mem_map.mp hm
        simpa [he] using hnone old hold
      rw [if_neg hmem]
      simp only [overwrite, hplace, List.map_append, List.map_cons, List.map_nil]

theorem mem_overwrite (assignments : List (Assignment ω)) (assignment added : Assignment ω)
    (h : added ∈ (overwrite assignments assignment).1) :
    added ∈ assignments ∨ added = assignment := by
  unfold overwrite at h
  split at h
  · exact (List.mem_or_eq_of_mem_set h)
  · simpa using h

-- Taking over assignments leaves each name in one place, and what is taken
-- over is unlinked.
theorem nodup_overwriteAll (assignments others : List (Assignment ω))
    (h : (assignments.map Assignment.name).Nodup) :
    ((overwriteAll assignments others).1.map Assignment.name).Nodup := by
  induction others generalizing assignments with
  | nil => exact h
  | cons other rest ih =>
      refine ih (overwrite assignments ⟨other.name, other.rule.unlinked⟩).1 ?_
      rw [names_overwrite]
      split
      · exact h
      · exact nodup_append_singleton _ _ h ‹_›

theorem mem_overwriteAll (assignments others : List (Assignment ω)) (added : Assignment ω)
    (h : added ∈ (overwriteAll assignments others).1) :
    added ∈ assignments ∨ ∃ rule : Rule ω, added.rule = rule.unlinked := by
  induction others generalizing assignments with
  | nil => exact .inl h
  | cons other rest ih =>
      rcases ih _ h with h | h
      · refine (mem_overwrite _ _ _ h).imp_right fun he => ⟨other.rule, ?_⟩
        rw [he]
      · exact .inr h

theorem Settled.merge (grammar other : Grammar ω) (h : grammar.Settled) :
    (grammar.merge other).1.Settled where
  nodup := nodup_overwriteAll _ _ h.nodup
  marks := by
    intro assignment hassignment
    rcases mem_overwriteAll _ _ _ hassignment with hold | hnew
    · exact h.marks assignment hold
    · obtain ⟨rule, hrule⟩ := hnew
      rw [hrule, mark_unlinked]
      exact ⟨nofun, nofun⟩

theorem mark_inlined {σ : Type} (resolve : String → σ → Option (Rule ω) × σ) (rule : Rule ω)
    (state : σ) : (rule.inlined resolve state).1.mark = rule.mark := by
  cases rule
  rfl

-- Inlining keeps the assignments of names that are not local.
theorem names_inlineAssignments (grammar : Grammar ω) (assignments : List (Assignment ω))
    (pass : InliningPass ω) :
    (grammar.inlineAssignments assignments pass).1.map Assignment.name =
      (assignments.map Assignment.name).filter (!isLocal ·) := by
  induction assignments generalizing pass with
  | nil => rfl
  | cons assignment rest ih =>
      obtain ⟨name, rule⟩ := assignment
      by_cases hlocal : isLocal name <;> simp [inlineAssignments, hlocal, ih]

@[simp] theorem names_inlineLocals (grammar : Grammar ω) :
    grammar.inlineLocals.1.names = grammar.names.filter (!isLocal ·) :=
  grammar.names_inlineAssignments grammar.assignments ⟨[], []⟩

theorem mem_inlineAssignments (grammar : Grammar ω) (assignments : List (Assignment ω))
    (pass : InliningPass ω) (inlined : Assignment ω)
    (h : inlined ∈ (grammar.inlineAssignments assignments pass).1) :
    ∃ assignment ∈ assignments, inlined.rule.mark = assignment.rule.mark := by
  induction assignments generalizing pass with
  | nil => simp [inlineAssignments] at h
  | cons assignment rest ih =>
      obtain ⟨name, rule⟩ := assignment
      by_cases hlocal : isLocal name
      · simp only [inlineAssignments, hlocal, if_true] at h
        obtain ⟨old, hold, hmark⟩ := ih _ h
        exact ⟨old, List.mem_cons_of_mem _ hold, hmark⟩
      · simp only [inlineAssignments, hlocal, if_false, List.mem_cons, Bool.false_eq_true] at h
        rcases h with rfl | h
        · exact ⟨_, List.mem_cons_self, mark_inlined _ _ _⟩
        · obtain ⟨old, hold, hmark⟩ := ih _ h
          exact ⟨old, List.mem_cons_of_mem _ hold, hmark⟩

theorem Settled.inlineLocals (grammar : Grammar ω) (h : grammar.Settled) :
    grammar.inlineLocals.1.Settled where
  nodup := by
    rw [grammar.names_inlineLocals]
    exact h.nodup.filter _
  marks := by
    intro assignment hassignment
    obtain ⟨old, hold, hmark⟩ := grammar.mem_inlineAssignments _ _ _ hassignment
    rw [hmark]
    exact h.marks old hold

end Steps

-- Every operation leaves a grammar that can be bound.
theorem Reachable.settled (grammar : Grammar ω) (h : grammar.Reachable) : grammar.Settled := by
  induction h with
  | empty => exact ⟨List.nodup_nil, nofun⟩
  | insert grammar name rule _ ih => exact ih.insert grammar name rule
  | merge grammar other _ _ ih _ => exact ih.merge grammar other
  | inlineLocals grammar _ ih => exact ih.inlineLocals grammar
  | bind grammar start _ ih => exact ih.bind grammar start

end Grammar

end PhraseGrammar
