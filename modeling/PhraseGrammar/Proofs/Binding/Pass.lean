import PhraseGrammar.Proofs.Binding.Walk

namespace PhraseGrammar

variable {ω : Type} [Weight ω]

namespace BindingPass

omit [Weight ω]

theorem ruleAt?_put (pass : BindingPass ω) (index other : Nat) (rule : Rule ω) :
    (pass.put index rule).ruleAt? other =
      if index = other then (pass.ruleAt? other).map fun _ => rule else pass.ruleAt? other := by
  by_cases h : index = other <;>
    simp [ruleAt?, put, h, Function.comp_def]

@[simp] theorem names_put (pass : BindingPass ω) (index : Nat) (rule : Rule ω) :
    (pass.put index rule).assignments.map Assignment.name =
      pass.assignments.map Assignment.name := by
  apply List.ext_getElem?
  intro other
  by_cases h : index = other <;>
    simp [put, h, Function.comp_def]

end BindingPass

namespace Grammar

omit [Weight ω] in
-- No rule is being bound, and none has been bound in the pass of the grammar.
def Fresh (grammar : Grammar ω) : Prop :=
  ∀ index rule, grammar.ruleAt? index = some rule →
    rule.mark ≠ .inProgress ∧ rule.mark ≠ .bound grammar.passes

-- The state of a pass that has come as far as a trail, below a path: the rules
-- on the path are marked, the finished ones stand in their places, and every
-- other one is still as it is in the grammar.
structure Agrees (grammar : Grammar ω) (path : List String) (trail : Trail ω)
    (pass : BindingPass ω) : Prop where
  names : pass.assignments.map Assignment.name = grammar.names
  reports : pass.reports = trail.reports
  opened (name : String) (index : Nat) (hpath : name ∈ path)
      (hname : grammar.indexOf? name = some index) :
    ∃ rule, pass.ruleAt? index = some rule ∧ rule.mark = .inProgress
  finished (name : String) (index : Nat) (rule : Rule ω) (hpath : name ∉ path)
      (hname : grammar.indexOf? name = some index)
      (hfinished : trail.finished.lookup name = some rule) :
    pass.ruleAt? index = some rule ∧ rule.mark = .bound grammar.passes
  untouched (name : String) (index : Nat) (hpath : name ∉ path)
      (hname : grammar.indexOf? name = some index)
      (hfinished : trail.finished.lookup name = none) :
    pass.ruleAt? index = grammar.ruleAt? index

section Agreement

omit [Weight ω]

variable (grammar : Grammar ω)

theorem Agrees.report (path : List String) (trail : Trail ω) (pass : BindingPass ω)
    (h : grammar.Agrees path trail pass) (diagnostic : Diagnostic) :
    grammar.Agrees path (trail.report diagnostic) (pass.report diagnostic) where
  names := h.names
  reports := by rw [BindingPass.report, Trail.report, h.reports]
  opened := h.opened
  finished := h.finished
  untouched := h.untouched

theorem Agrees.enter (path : List String) (trail : Trail ω) (pass : BindingPass ω)
    (h : grammar.Agrees path trail pass) (name : String) (index : Nat) (rule : Rule ω)
    (hname : grammar.indexOf? name = some index) (hrule : pass.ruleAt? index = some rule) :
    grammar.Agrees (name :: path) trail (pass.put index rule.opened) where
  names := (pass.names_put index rule.opened).trans h.names
  reports := h.reports
  opened := by
    intro other place hpath hother
    rw [pass.ruleAt?_put]
    by_cases he : index = place
    · subst he
      rw [if_pos rfl, hrule]
      exact ⟨rule.opened, rfl, rfl⟩
    · have hne : other ≠ name := fun hn => he (Option.some.inj ((hn ▸ hname).symm.trans hother))
      rw [if_neg he]
      exact h.opened other place (List.mem_of_ne_of_mem hne hpath) hother
  finished := by
    intro other place bound hpath hother hfinished
    have hne : index ≠ place := fun he => hpath
      (grammar.indexOf?_inj name other place (he ▸ hname) hother ▸ List.mem_cons_self)
    rw [pass.ruleAt?_put, if_neg hne]
    exact h.finished other place bound (fun hm => hpath (List.mem_cons_of_mem _ hm)) hother
      hfinished
  untouched := by
    intro other place hpath hother hfinished
    have hne : index ≠ place := fun he => hpath
      (grammar.indexOf?_inj name other place (he ▸ hname) hother ▸ List.mem_cons_self)
    rw [pass.ruleAt?_put, if_neg hne]
    exact h.untouched other place (fun hm => hpath (List.mem_cons_of_mem _ hm)) hother hfinished

theorem Agrees.leave (path : List String) (trail : Trail ω) (pass : BindingPass ω) (name : String)
    (h : grammar.Agrees (name :: path) trail pass) (index : Nat) (rule : Rule ω)
    (hname : grammar.indexOf? name = some index) (hpath : name ∉ path)
    (hmark : rule.mark = .bound grammar.passes) :
    grammar.Agrees path (trail.finish name rule) (pass.put index rule) where
  names := (pass.names_put index rule).trans h.names
  reports := h.reports
  opened := by
    intro other place hother hplace
    have hne : index ≠ place := fun he => hpath
      (grammar.indexOf?_inj name other place (he ▸ hname) hplace ▸ hother)
    rw [pass.ruleAt?_put, if_neg hne]
    exact h.opened other place (List.mem_cons_of_mem _ hother) hplace
  finished := by
    intro other place bound hother hplace hfinished
    rw [pass.ruleAt?_put]
    rw [trail.lookup_finish] at hfinished
    by_cases he : other = name
    · subst he
      obtain rfl : index = place := Option.some.inj (hname.symm.trans hplace)
      obtain rfl : rule = bound := by simpa using hfinished
      obtain ⟨old, hold, _⟩ := h.opened other index List.mem_cons_self hname
      rw [if_pos rfl, hold]
      exact ⟨rfl, hmark⟩
    · have hne : index ≠ place :=
        fun hi => he (grammar.indexOf?_inj other name place hplace (hi ▸ hname))
      rw [if_neg hne]
      exact h.finished other place bound (by simp [he, hother]) hplace
        (by simpa [he] using hfinished)
  untouched := by
    intro other place hother hplace hfinished
    rw [trail.lookup_finish] at hfinished
    have he : other ≠ name := fun he => by simp [he] at hfinished
    have hne : index ≠ place :=
      fun hi => he (grammar.indexOf?_inj other name place hplace (hi ▸ hname))
    rw [pass.ruleAt?_put, if_neg hne]
    exact h.untouched other place (by simp [he, hother]) hplace (by simpa [he] using hfinished)

end Agreement

variable (grammar : Grammar ω)

theorem visit_of_opened (depth index : Nat) (pass : BindingPass ω) (rule : Rule ω)
    (hrule : pass.ruleAt? index = some rule) (hmark : rule.mark = .inProgress) :
    grammar.visit depth index pass = (false, pass) := by
  rw [visit, hrule]
  simp only [hmark, if_true]

theorem visit_of_bound (depth index : Nat) (pass : BindingPass ω) (rule : Rule ω)
    (hrule : pass.ruleAt? index = some rule) (hmark : rule.mark = .bound grammar.passes) :
    grammar.visit depth index pass = (true, pass) := by
  rw [visit, hrule]
  simp only [hmark, reduceCtorEq, if_false, if_true]

theorem visit_of_fresh (depth index : Nat) (pass : BindingPass ω) (rule : Rule ω)
    (hrule : pass.ruleAt? index = some rule)
    (hmark : rule.mark ≠ .inProgress ∧ rule.mark ≠ .bound grammar.passes) :
    grammar.visit (depth + 1) index pass =
      let (given, next) := answers (grammar.follow (grammar.visit depth)) rule.mentions
        (pass.put index rule.opened)
      (true, next.put index (grammar.closed rule given)) := by
  rw [visit, hrule]
  simp only [hmark, if_false, Rule.bound_eq_answered, closed]

-- If the rules that are not finished can be visited, references are walked
-- along, and the pass agrees with the trail all the way.
theorem walk_of_visits (depth : Nat) (path : List String)
    (hvisit : ∀ name index rule trail pass, grammar.Agrees path trail pass →
      grammar.indexOf? name = some index → grammar.rule? name = some rule → name ∉ path →
      trail.finished.lookup name = none →
      ∃ inner middle next,
        grammar.Walk (name :: path) rule.mentions trail inner middle ∧
        grammar.visit depth index pass = (true, next) ∧
        grammar.Agrees path (middle.finish name (grammar.closed rule inner)) next)
    (names : List String) (trail : Trail ω) (pass : BindingPass ω)
    (hagrees : grammar.Agrees path trail pass) :
    ∃ last,
      grammar.Walk path names trail
        (answers (grammar.follow (grammar.visit depth)) names pass).1 last ∧
      grammar.Agrees path last (answers (grammar.follow (grammar.visit depth)) names pass).2 := by
  induction names generalizing trail pass with
  | nil => exact ⟨trail, .nil path trail, hagrees⟩
  | cons name rest ih =>
      cases hname : grammar.indexOf? name with
      | none =>
          obtain ⟨last, hwalk, hlast⟩ := ih trail pass hagrees
          simp only [answers, follow, hname]
          exact ⟨last, .unassigned _ _ _ _ _ _ hname hwalk, hlast⟩
      | some index =>
          -- The mark of the rule tells which of the three cases it is.
          by_cases hpath : name ∈ path
          · obtain ⟨rule, hrule, hmark⟩ := hagrees.opened name index hpath hname
            have hreport := hagrees.report _ _ _ _ (.recursiveExpansion name)
            obtain ⟨last, hwalk, hlast⟩ := ih _ _ hreport
            simp only [answers, follow, hname, grammar.visit_of_opened _ _ _ rule hrule hmark]
            exact ⟨last, .cycle _ _ _ _ _ _ index hname hpath hwalk, hlast⟩
          cases hfinished : trail.finished.lookup name with
          | some rule =>
              obtain ⟨hrule, hmark⟩ := hagrees.finished name index rule hpath hname hfinished
              obtain ⟨last, hwalk, hlast⟩ := ih trail pass hagrees
              simp only [answers, follow, hname, grammar.visit_of_bound _ _ _ rule hrule hmark,
                hrule, Option.map_some]
              exact ⟨last, .finished _ _ _ _ _ _ index rule hname hfinished hwalk, hlast⟩
          | none =>
              obtain ⟨rule, _, hrule⟩ := grammar.exists_ruleAt?_of_indexOf? name index hname
              obtain ⟨inner, middle, next, hinner, hnext, hmiddle⟩ :=
                hvisit name index rule trail pass hagrees hname hrule hpath hfinished
              obtain ⟨last, hwalk, hlast⟩ := ih _ _ hmiddle
              have hbound := hmiddle.finished name index _ hpath hname
                (by rw [Trail.lookup_finish, if_pos rfl])
              simp only [answers, follow, hname, hnext, hbound.1, Option.map_some]
              exact ⟨last, .visit _ _ _ _ _ _ _ _ index rule hname hrule hpath hfinished hinner
                hwalk, hlast⟩

-- A rule that is neither finished nor on the path can be visited. The depth
-- suffices, as no rule is visited below itself.
theorem exists_visit (hfresh : grammar.Fresh) (depth : Nat) (path : List String)
    (hnodup : path.Nodup) (hsub : path ⊆ grammar.names)
    (hdepth : grammar.assignments.length ≤ depth + path.length)
    (name : String) (index : Nat) (rule : Rule ω) (trail : Trail ω) (pass : BindingPass ω)
    (hagrees : grammar.Agrees path trail pass) (hname : grammar.indexOf? name = some index)
    (hrule : grammar.rule? name = some rule) (hpath : name ∉ path)
    (hfinished : trail.finished.lookup name = none) :
    ∃ inner middle next,
      grammar.Walk (name :: path) rule.mentions trail inner middle ∧
      grammar.visit depth index pass = (true, next) ∧
      grammar.Agrees path (middle.finish name (grammar.closed rule inner)) next := by
  have hmem := grammar.mem_names_of_indexOf? name index hname
  have hroom := grammar.length_path_lt path name hnodup hsub hmem hpath
  induction depth generalizing path name index rule trail pass with
  | zero => omega
  | succ depth ih =>
      have hplace : grammar.ruleAt? index = some rule :=
        (grammar.rule?_eq_ruleAt? name index hname).symm.trans hrule
      have hstill : pass.ruleAt? index = some rule :=
        (hagrees.untouched name index hpath hname hfinished).trans hplace
      -- One step deeper the path is longer by one name, so the depth suffices.
      have hdepth' : grammar.assignments.length ≤ depth + (name :: path).length := by
        simp only [List.length_cons]
        omega
      have hnodup' : (name :: path).Nodup := List.nodup_cons.mpr ⟨hpath, hnodup⟩
      have hsub' : name :: path ⊆ grammar.names := List.cons_subset.mpr ⟨hmem, hsub⟩
      obtain ⟨middle, hwalk, hmiddle⟩ := grammar.walk_of_visits depth (name :: path)
        (fun other place bound trail pass ha hn hr hp hf =>
          have hother := grammar.mem_names_of_indexOf? other place hn
          ih (name :: path) hnodup' hsub' hdepth' other place bound trail pass ha hn hr hp hf hother
            (grammar.length_path_lt _ other hnodup' hsub' hother hp))
        rule.mentions trail (pass.put index rule.opened)
        (hagrees.enter _ _ _ _ name index rule hname hstill)
      refine ⟨_, middle, _, hwalk, ?_, hmiddle.leave _ _ _ _ _ index _ hname hpath rfl⟩
      rw [grammar.visit_of_fresh depth index pass rule hstill (hfresh index rule hplace)]

end Grammar

end PhraseGrammar
