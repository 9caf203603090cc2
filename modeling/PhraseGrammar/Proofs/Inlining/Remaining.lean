import PhraseGrammar.Proofs.Inlining.LocalWalk

namespace PhraseGrammar

variable {ω : Type}

section Answers

variable {α σ : Type} (ask : String → σ → α × σ)

@[simp] theorem length_answers (names : List String) (state : σ) :
    (answers ask names state).1.length = names.length := by
  induction names generalizing state with
  | nil => rfl
  | cons name rest ih => exact congrArg (· + 1) (ih _)

theorem zip_answers_append (left right : List String) (state : σ) :
    (left ++ right).zip (answers ask (left ++ right) state).1 =
      left.zip (answers ask left state).1 ++
        right.zip (answers ask right (answers ask left state).2).1 := by
  rw [answers_append, List.zip_append (length_answers ask left state).symm]

theorem answers_nextAnswer {β : Type} (names : List String) (given : List (Option β))
    (h : given.length = names.length) : (answers nextAnswer names given).1 = given := by
  induction names generalizing given with
  | nil => exact (List.length_eq_zero_iff.mp h).symm
  | cons name rest ih =>
      obtain ⟨first, more, rfl⟩ := List.exists_cons_of_length_eq_add_one h
      simp only [answers, nextAnswer, ih more (Nat.succ.inj h)]

end Answers

-- What stays of a local name once it has been answered: the name itself if
-- there is no rule for it, else the local names in the rule.
def Leaves (good : String → Prop) (asked : String × Option (Rule ω)) : Prop :=
  ∀ other ∈ (asked.2.map Rule.locals).getD [asked.1], good other

section Inlined

variable {σ : Type} (resolve : String → σ → Option (Rule ω) × σ) (good : String → Prop)

-- What stays of the local names in a rule is what stays of each of them.
mutual

theorem Rule.leaves_inlined : ∀ (rule : Rule ω) (state : σ),
    (∀ asked ∈ ((rule.references.map Prod.fst).filter isLocal).zip
      (answers resolve ((rule.references.map Prod.fst).filter isLocal) state).1,
      Leaves good asked) →
    ∀ other ∈ (((rule.inlined resolve state).1.references.map Prod.fst).filter isLocal), good other
  | ⟨choices, _, _, _, _, _⟩, state, h => leaves_inlinedChoices choices state h

theorem leaves_inlinedChoices : ∀ (choices : List (Choice ω)) (state : σ),
    (∀ asked ∈ (((referencesOfChoices choices).map Prod.fst).filter isLocal).zip
      (answers resolve (((referencesOfChoices choices).map Prod.fst).filter isLocal) state).1,
      Leaves good asked) →
    ∀ other ∈ ((referencesOfChoices (inlinedChoices resolve choices state).1).map Prod.fst).filter
      isLocal, good other
  | [], _, _ => List.forall_mem_nil _
  | ⟨parts, _, _, _⟩ :: rest, state, h => by
      simp only [referencesOfChoices, List.map_append, List.filter_append, zip_answers_append,
        List.forall_mem_append] at h
      have hstate := (inlinedParts_answers resolve parts state []).2
      simp only [inlinedChoices, referencesOfChoices, List.map_append, List.filter_append,
        List.forall_mem_append]
      exact ⟨leaves_inlinedParts parts state h.1, leaves_inlinedChoices rest _ (hstate ▸ h.2)⟩

theorem leaves_inlinedParts : ∀ (parts : List (Part ω)) (state : σ),
    (∀ asked ∈ (((referencesOfParts parts).map Prod.fst).filter isLocal).zip
      (answers resolve (((referencesOfParts parts).map Prod.fst).filter isLocal) state).1,
      Leaves good asked) →
    ∀ other ∈ ((referencesOfParts (inlinedParts resolve parts state).1).map Prod.fst).filter
      isLocal, good other
  | [], _, _ => List.forall_mem_nil _
  | .literal _ :: rest, state, h => leaves_inlinedParts rest state h
  | .inline rule :: rest, state, h => by
      simp only [referencesOfParts, List.map_append, List.filter_append, zip_answers_append,
        List.forall_mem_append] at h
      have hstate := (rule.inlined_answers resolve state []).2
      simp only [inlinedParts, referencesOfParts, List.map_append, List.filter_append,
        List.forall_mem_append]
      exact ⟨rule.leaves_inlined state h.1, leaves_inlinedParts rest _ (hstate ▸ h.2)⟩
  | .reference name _ :: rest, state, h => by
      by_cases hlocal : isLocal name
      · simp only [referencesOfParts, List.map_cons, hlocal, List.filter_cons_of_pos, answers,
          List.zip_cons_cons, List.forall_mem_cons] at h
        obtain ⟨hfirst, hmore⟩ := h
        rcases hanswer : resolve name state with ⟨_ | inner, next⟩ <;>
          rw [hanswer] at hfirst hmore <;>
          have hrest := leaves_inlinedParts rest next hmore
        · simp only [inlinedParts, hlocal, if_true, hanswer, referencesOfParts, List.map_cons,
            List.filter_cons_of_pos, List.forall_mem_cons]
          exact ⟨hfirst name List.mem_cons_self, hrest⟩
        · simp only [inlinedParts, hlocal, if_true, hanswer, referencesOfParts, List.map_append,
            List.filter_append, List.forall_mem_append]
          exact ⟨hfirst, hrest⟩
      · simp only [referencesOfParts, List.map_cons, hlocal, Bool.false_eq_true, not_false_eq_true,
          List.filter_cons_of_neg] at h
        simp only [inlinedParts, hlocal, Bool.false_eq_true, if_false, referencesOfParts,
          List.map_cons, not_false_eq_true, List.filter_cons_of_neg]
        exact leaves_inlinedParts rest state h

end

end Inlined

theorem Rule.leaves_resolved (good : String → Prop) (rule : Rule ω) (given : List (Option (Rule ω)))
    (hlength : given.length = rule.locals.length)
    (h : ∀ asked ∈ rule.locals.zip given, Leaves good asked) :
    ∀ other ∈ (rule.resolved given).locals, good other := by
  have hgiven := answers_nextAnswer rule.locals given hlength
  refine rule.leaves_inlined nextAnswer good given fun asked hasked => h asked ?_
  rw [← hgiven]
  exact hasked

-- It has been reported that the name could not be resolved.
def Noted (reports : List Diagnostic) (name : String) : Prop :=
  .missingLocal name ∈ reports ∨ .recursiveExpansion name ∈ reports

theorem Noted.mono {reports more : List Diagnostic} (hsub : reports ⊆ more) (name : String)
    (h : Noted reports name) : Noted more name :=
  h.imp (@hsub _) (@hsub _)

namespace Grammar

-- Every local name in what has been resolved is noted.
def AllNoted (pass : InliningPass ω) : Prop :=
  ∀ entry ∈ pass.resolved, ∀ other ∈ entry.2.locals, Noted pass.reports other

theorem AllNoted.report {pass : InliningPass ω} (h : AllNoted pass) (diagnostic : Diagnostic) :
    AllNoted (pass.report diagnostic) :=
  fun entry hentry other hother =>
    (h entry hentry other hother).mono (List.subset_append_left _ _)

variable {grammar : Grammar ω}

-- Whatever a name is answered with, what stays of it is noted in the end.
theorem LocalWalk.allNoted {path names : List String} {pass last : InliningPass ω}
    {given : List (Option (Rule ω))} (h : grammar.LocalWalk path names pass given last)
    (hpass : AllNoted pass) :
    AllNoted last ∧ ∀ asked ∈ names.zip given, Leaves (Noted last.reports) asked := by
  induction h with
  | nil => exact ⟨hpass, List.forall_mem_nil _⟩
  | resolved _ name _ pass last _ rule hname hrest ih =>
      obtain ⟨hlast, hmore⟩ := ih hpass
      refine ⟨hlast, List.forall_mem_cons.mpr ⟨fun other hother => ?_, hmore⟩⟩
      have hentry := hpass _ (mem_of_lookup _ _ _ hname) other hother
      exact hentry.mono hrest.reports_prefix.subset
  | missing _ name _ pass last _ _ _ hrest ih =>
      obtain ⟨hlast, hmore⟩ := ih (hpass.report _)
      refine ⟨hlast, List.forall_mem_cons.mpr ⟨fun other hother => ?_, hmore⟩⟩
      rw [List.mem_singleton.mp hother]
      exact .inl (hrest.reports_prefix.subset (List.mem_append_right _ List.mem_cons_self))
  | cycle _ name _ pass last _ _ _ _ _ hrest ih =>
      obtain ⟨hlast, hmore⟩ := ih (hpass.report _)
      refine ⟨hlast, List.forall_mem_cons.mpr ⟨fun other hother => ?_, hmore⟩⟩
      rw [List.mem_singleton.mp hother]
      exact .inr (hrest.reports_prefix.subset (List.mem_append_right _ List.mem_cons_self))
  | visit _ name _ pass middle last inner _ rule _ _ _ hinner hrest ihinner ihrest =>
      obtain ⟨hmiddle, hasked⟩ := ihinner hpass
      have hrule := rule.leaves_resolved _ inner hinner.length_given hasked
      obtain ⟨hlast, hmore⟩ := ihrest (List.forall_mem_cons.mpr ⟨hrule, hmiddle⟩)
      refine ⟨hlast, List.forall_mem_cons.mpr ⟨fun other hother => ?_, hmore⟩⟩
      exact (hrule other hother).mono hrest.reports_prefix.subset

theorem noted_inlineAssignments (grammar : Grammar ω) (assignments : List (Assignment ω))
    (pass : InliningPass ω) (hpass : AllNoted pass) :
    ∀ assignment ∈ (grammar.inlineAssignments assignments pass).1,
      ∀ name ∈ assignment.rule.locals,
        Noted (grammar.inlineAssignments assignments pass).2.reports name := by
  induction assignments generalizing pass with
  | nil => exact List.forall_mem_nil _
  | cons assignment rest ih =>
      obtain ⟨name, rule⟩ := assignment
      rw [inlineAssignments]
      split
      · exact ih pass hpass
      · have hwalk := grammar.localWalk_answers grammar.assignments.length [] List.nodup_nil
          (List.nil_subset _) (Nat.le_add_right _ _) rule.locals pass
        obtain ⟨hnext, hasked⟩ := hwalk.allNoted hpass
        have hrule := rule.leaves_resolved _ _ hwalk.length_given hasked
        obtain ⟨_, hmore⟩ := grammar.localWalk_inlineAssignments rest
          (rule.inlined (grammar.resolveLocal grammar.assignments.length []) pass).2
        rw [rule.inlined_eq_resolved] at hmore ⊢
        refine List.forall_mem_cons.mpr ⟨fun other hother => ?_, ih _ hnext⟩
        exact (hrule other hother).mono hmore.reports_prefix.subset

-- A local name that is left anywhere has been reported.
theorem noted_inlineLocals (grammar : Grammar ω) :
    ∀ assignment ∈ grammar.inlineLocals.1.assignments, ∀ name ∈ assignment.rule.locals,
      Noted grammar.inlineLocals.2 name :=
  grammar.noted_inlineAssignments grammar.assignments ⟨[], []⟩ (List.forall_mem_nil _)

end Grammar

end PhraseGrammar
