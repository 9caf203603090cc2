import PhraseGrammar.Proofs.Grammar.Names
import PhraseGrammar.Proofs.Inlining.Resolved

namespace PhraseGrammar.Grammar

variable {ω : Type}

abbrev resolvedIn (resolved : List (String × Rule ω)) (name : String) : Option (Rule ω) :=
  resolved.lookup name

-- Local names with their rules, the latest first. In each of the rules the
-- local names have been inlined by what stands below it.
inductive Inlined (grammar : Grammar ω) : List (String × Rule ω) → Prop
  | nil : Inlined grammar []
  | cons (name : String) (rule : Rule ω) (older : List (String × Rule ω))
      (hlocal : isLocal name) (hrule : grammar.rule? name = some rule)
      (hnew : older.lookup name = none)
      (hbelow : ∀ other ∈ rule.locals, (older.lookup other).isSome)
      (holder : Inlined grammar older) :
      Inlined grammar ((name, rule.inlinedBy (resolvedIn older)) :: older)

-- A pass has come from one state to another, below a path of names that are
-- being resolved, and nothing is wrong so far.
structure Advances (grammar : Grammar ω) (path : List String) (pass next : InliningPass ω) :
    Prop where
  reports : pass.reports = []
  kept (name : String) (rule : Rule ω) (hname : pass.resolved.lookup name = some rule) :
    next.resolved.lookup name = some rule
  unresolved (name : String) (hpath : name ∈ path) (hname : pass.resolved.lookup name = none) :
    next.resolved.lookup name = none
  inlined (hpass : grammar.Inlined pass.resolved) : grammar.Inlined next.resolved

section Passes

variable (grammar : Grammar ω)

theorem Advances.refl (path : List String) (pass : InliningPass ω) (h : pass.reports = []) :
    grammar.Advances path pass pass :=
  ⟨h, fun _ _ => id, fun _ _ => id, id⟩

theorem Advances.trans (path : List String) (pass middle next : InliningPass ω)
    (h : grammar.Advances path pass middle) (h' : grammar.Advances path middle next) :
    grammar.Advances path pass next where
  reports := h.reports
  kept name rule hname := h'.kept name rule (h.kept name rule hname)
  unresolved name hpath hname := h'.unresolved name hpath (h.unresolved name hpath hname)
  inlined hpass := h'.inlined (h.inlined hpass)

theorem Advances.resolvedIn_eq (path : List String) (pass next : InliningPass ω)
    (h : grammar.Advances path pass next) (name : String)
    (hname : (pass.resolved.lookup name).isSome) :
    resolvedIn pass.resolved name = resolvedIn next.resolved name := by
  obtain ⟨rule, hrule⟩ := Option.isSome_iff_exists.mp hname
  exact hrule.trans (h.kept name rule hrule).symm

-- Every answer that is given without a report is what the name is resolved to
-- from then on.
def Resolves (path : List String)
    (resolve : String → InliningPass ω → Option (Rule ω) × InliningPass ω) : Prop :=
  ∀ name pass, isLocal name → (resolve name pass).2.reports = [] →
    grammar.Advances path pass (resolve name pass).2 ∧
      (resolve name pass).1 = (resolve name pass).2.resolved.lookup name ∧
      (resolve name pass).1.isSome

theorem Resolves.answers (path : List String)
    (resolve : String → InliningPass ω → Option (Rule ω) × InliningPass ω)
    (h : grammar.Resolves path resolve) (names : List String)
    (hnames : ∀ name ∈ names, isLocal name) (pass : InliningPass ω)
    (hreports : (answers resolve names pass).2.reports = []) :
    grammar.Advances path pass (answers resolve names pass).2 ∧
      (answers resolve names pass).1 =
        names.map (resolvedIn (answers resolve names pass).2.resolved) ∧
      ∀ name ∈ names, ((answers resolve names pass).2.resolved.lookup name).isSome := by
  induction names generalizing pass with
  | nil => exact ⟨.refl _ _ _ hreports, rfl, by simp⟩
  | cons name rest ih =>
      obtain ⟨hlocal, hrest⟩ := List.forall_mem_cons.mp hnames
      obtain ⟨hnext, hmore, hsome⟩ := ih hrest (resolve name pass).2 hreports
      obtain ⟨hfirst, hanswer, hfound⟩ := h name pass hlocal hnext.reports
      obtain ⟨rule, hrule⟩ := Option.isSome_iff_exists.mp hfound
      have hstays := hnext.kept name rule (hanswer.symm.trans hrule)
      refine ⟨hfirst.trans _ _ _ _ _ hnext, ?_, ?_⟩
      · simp only [PhraseGrammar.answers, List.map_cons, hmore, hstays, hrule]
      · exact List.forall_mem_cons.mpr ⟨by rw [PhraseGrammar.answers, hstays]; rfl, hsome⟩

theorem isLocal_of_mem_locals (rule : Rule ω) : ∀ name ∈ rule.locals, isLocal name :=
  fun _ hname => (List.mem_filter.mp hname).2

-- A rule is inlined by what its local names are resolved to in the end.
theorem Resolves.inlined (path : List String)
    (resolve : String → InliningPass ω → Option (Rule ω) × InliningPass ω)
    (h : grammar.Resolves path resolve) (rule : Rule ω) (pass : InliningPass ω)
    (hreports : (rule.inlined resolve pass).2.reports = []) :
    grammar.Advances path pass (rule.inlined resolve pass).2 ∧
      (rule.inlined resolve pass).1 =
        rule.inlinedBy (resolvedIn (rule.inlined resolve pass).2.resolved) ∧
      ∀ name ∈ rule.locals, ((rule.inlined resolve pass).2.resolved.lookup name).isSome := by
  rw [rule.inlined_eq_resolved] at hreports ⊢
  obtain ⟨hadvances, hgiven, hsome⟩ :=
    h.answers grammar path resolve rule.locals (isLocal_of_mem_locals rule) pass hreports
  exact ⟨hadvances, (congrArg rule.resolved hgiven).trans (rule.resolved_map _), hsome⟩

theorem resolveLocal_of_lookup (depth : Nat) (path : List String) (name : String)
    (pass : InliningPass ω) (rule : Rule ω) (hname : pass.resolved.lookup name = some rule) :
    grammar.resolveLocal depth path name pass = (some rule, pass) := by
  rw [resolveLocal, hname]

-- A local name has been resolved before, or it cannot be resolved, or its rule
-- is inlined now.
theorem resolveLocal_cases (depth : Nat) (path : List String) (name : String)
    (pass : InliningPass ω) :
    (∃ rule, pass.resolved.lookup name = some rule ∧
      grammar.resolveLocal depth path name pass = (some rule, pass)) ∨
    (∃ report, (report = .missingLocal name ∨ report = .recursiveExpansion name) ∧
      grammar.resolveLocal depth path name pass =
        (none, { pass with reports := pass.reports ++ [report] })) ∨
    ∃ rule less, grammar.rule? name = some rule ∧ depth = less + 1 ∧ name ∉ path ∧
      grammar.resolveLocal depth path name pass =
        (some (rule.inlined (grammar.resolveLocal less (name :: path)) pass).1,
          { (rule.inlined (grammar.resolveLocal less (name :: path)) pass).2 with
            resolved :=
              (name, (rule.inlined (grammar.resolveLocal less (name :: path)) pass).1) ::
                (rule.inlined (grammar.resolveLocal less (name :: path)) pass).2.resolved }) := by
  cases hlookup : pass.resolved.lookup name with
  | some rule => exact .inl ⟨rule, rfl, grammar.resolveLocal_of_lookup _ _ _ _ _ hlookup⟩
  | none =>
      cases hrule : grammar.rule? name with
      | none => exact .inr (.inl ⟨_, .inl rfl, by simp [resolveLocal, hlookup, hrule]⟩)
      | some rule =>
          cases depth with
          | zero => exact .inr (.inl ⟨_, .inr rfl, by simp [resolveLocal, hlookup, hrule]⟩)
          | succ less =>
              by_cases hpath : name ∈ path
              · exact .inr (.inl ⟨_, .inr rfl, by simp [resolveLocal, hlookup, hrule, hpath]⟩)
              · exact .inr (.inr ⟨rule, less, rfl, rfl, hpath,
                  by simp [resolveLocal, hlookup, hrule, hpath]⟩)

-- A name that cannot be resolved is reported.
theorem rule_of_resolveLocal (depth : Nat) (path : List String) (name : String)
    (pass : InliningPass ω) (hname : pass.resolved.lookup name = none)
    (hreports : (grammar.resolveLocal depth path name pass).2.reports = []) :
    ∃ rule less, grammar.rule? name = some rule ∧ depth = less + 1 ∧ name ∉ path ∧
      grammar.resolveLocal depth path name pass =
        (some (rule.inlined (grammar.resolveLocal less (name :: path)) pass).1,
          { (rule.inlined (grammar.resolveLocal less (name :: path)) pass).2 with
            resolved :=
              (name, (rule.inlined (grammar.resolveLocal less (name :: path)) pass).1) ::
                (rule.inlined (grammar.resolveLocal less (name :: path)) pass).2.resolved }) := by
  rcases grammar.resolveLocal_cases depth path name pass with
    ⟨rule, hrule, -⟩ | ⟨report, -, hreport⟩ | h
  · rw [hname] at hrule
    exact nomatch hrule
  · simp [hreport] at hreports
  · exact h

-- A name that is missing or that expands to itself.
def Unresolved (report : Diagnostic) : Prop :=
  ∃ name, report = .missingLocal name ∨ report = .recursiveExpansion name

theorem unresolved_resolveLocal (depth : Nat) (path : List String) (name : String)
    (pass : InliningPass ω) (h : ∀ report ∈ pass.reports, Unresolved report) :
    ∀ report ∈ (grammar.resolveLocal depth path name pass).2.reports, Unresolved report := by
  induction depth using Nat.strongRecOn generalizing path name pass with
  | ind depth ih =>
      rcases grammar.resolveLocal_cases depth path name pass with
        ⟨_, _, hresolve⟩ | ⟨report, hreport, hresolve⟩ | ⟨rule, less, _, rfl, _, hresolve⟩
      · rwa [hresolve]
      · rw [hresolve]
        exact List.forall_mem_append.mpr ⟨h, List.forall_mem_singleton.mpr ⟨name, hreport⟩⟩
      · rw [hresolve, rule.inlined_eq_resolved]
        exact answers_keep _ (fun pass => ∀ report ∈ pass.reports, Unresolved report)
          (ih less (Nat.lt_succ_self less) (name :: path)) rule.locals pass h

theorem unresolved_inlineAssignments (assignments : List (Assignment ω)) (pass : InliningPass ω)
    (h : ∀ report ∈ pass.reports, Unresolved report) :
    ∀ report ∈ (grammar.inlineAssignments assignments pass).2.reports, Unresolved report := by
  induction assignments generalizing pass with
  | nil => exact h
  | cons assignment rest ih =>
      obtain ⟨name, rule⟩ := assignment
      rw [inlineAssignments]
      split
      · exact ih pass h
      · refine ih _ ?_
        rw [rule.inlined_eq_resolved]
        exact answers_keep _ (fun pass => ∀ report ∈ pass.reports, Unresolved report)
          (grammar.unresolved_resolveLocal _ _) rule.locals pass h

-- Inlining reports nothing else.
theorem unresolved_inlineLocals : ∀ report ∈ grammar.inlineLocals.2, Unresolved report :=
  grammar.unresolved_inlineAssignments grammar.assignments ⟨[], []⟩ (List.forall_mem_nil _)

-- Resolving a name resolves the names in its rule first. One that is on the
-- path is reported, so none of them is resolved twice.
theorem resolves_resolveLocal (depth : Nat) (path : List String) :
    grammar.Resolves path (grammar.resolveLocal depth path) := by
  induction depth generalizing path with
  | zero =>
      intro name pass _ hreports
      cases hname : pass.resolved.lookup name with
      | some rule =>
          rw [grammar.resolveLocal_of_lookup _ _ _ _ rule hname] at hreports ⊢
          exact ⟨.refl _ _ _ hreports, hname.symm, rfl⟩
      | none =>
          obtain ⟨_, _, _, hdepth, _⟩ := grammar.rule_of_resolveLocal _ _ _ _ hname hreports
          omega
  | succ depth ih =>
      intro name pass hlocal hreports
      cases hname : pass.resolved.lookup name with
      | some rule =>
          rw [grammar.resolveLocal_of_lookup _ _ _ _ rule hname] at hreports ⊢
          exact ⟨.refl _ _ _ hreports, hname.symm, rfl⟩
      | none =>
          obtain ⟨rule, less, hrule, hdepth, hpath, hresolve⟩ :=
            grammar.rule_of_resolveLocal _ _ _ _ hname hreports
          obtain rfl : depth = less := Nat.succ.inj hdepth
          rw [hresolve] at hreports ⊢
          obtain ⟨hinner, hinlined, hsome⟩ := (ih (name :: path)).inlined _ _ _ rule pass hreports
          -- The name is on the path of its own rule, so it is added once.
          have hnew := hinner.unresolved name List.mem_cons_self hname
          refine ⟨⟨hinner.reports, ?_, ?_, ?_⟩, List.lookup_cons_self.symm, rfl⟩
          · intro other found hother
            have hne : other ≠ name := fun he => by simp [he, hname] at hother
            rw [List.lookup_cons, beq_eq_false_iff_ne.mpr hne]
            exact hinner.kept other found hother
          · intro other hmem hother
            have hne : other ≠ name := fun he => hpath (he ▸ hmem)
            rw [List.lookup_cons, beq_eq_false_iff_ne.mpr hne]
            exact hinner.unresolved other (List.mem_cons_of_mem _ hmem) hother
          · intro hpass
            rw [hinlined]
            exact .cons name rule _ hlocal hrule hnew hsome (hinner.inlined hpass)

-- The assignments that are kept are inlined by what their local names are
-- resolved to in the end.
theorem inlineAssignments_eq (assignments : List (Assignment ω)) (pass : InliningPass ω)
    (hreports : (grammar.inlineAssignments assignments pass).2.reports = []) :
    grammar.Advances [] pass (grammar.inlineAssignments assignments pass).2 ∧
      (grammar.inlineAssignments assignments pass).1 =
        (assignments.filter (!isLocal ·.name)).map (fun assignment =>
          ⟨assignment.name, assignment.rule.inlinedBy
            (resolvedIn (grammar.inlineAssignments assignments pass).2.resolved)⟩) ∧
      ∀ assignment ∈ assignments, ¬ isLocal assignment.name → ∀ name ∈ assignment.rule.locals,
        (resolvedIn (grammar.inlineAssignments assignments pass).2.resolved name).isSome := by
  induction assignments generalizing pass with
  | nil => exact ⟨.refl _ _ _ hreports, rfl, by simp⟩
  | cons assignment rest ih =>
      obtain ⟨name, rule⟩ := assignment
      by_cases hlocal : isLocal name
      · simp only [inlineAssignments, hlocal, if_true] at hreports ⊢
        obtain ⟨hadvances, hassignments, hsome⟩ := ih pass hreports
        refine ⟨hadvances, ?_, ?_⟩
        · simpa [hlocal] using hassignments
        · simpa [hlocal] using hsome
      · simp only [inlineAssignments, hlocal, if_false, Bool.false_eq_true] at hreports ⊢
        obtain ⟨hrest, hassignments, hsome⟩ := ih _ hreports
        obtain ⟨hfirst, hinlined, hfound⟩ :=
          (grammar.resolves_resolveLocal _ []).inlined _ _ _ rule pass hrest.reports
        have hstays := fun other hother => hrest.resolvedIn_eq _ _ _ _ other (hfound other hother)
        refine ⟨hfirst.trans _ _ _ _ _ hrest, ?_, ?_⟩
        · rw [List.filter_cons_of_pos (by simpa using hlocal), List.map_cons, hassignments,
            hinlined, rule.inlinedBy_congr _ _ hstays]
        · refine List.forall_mem_cons.mpr ⟨fun _ other hother => ?_, hsome⟩
          rw [← hstays other hother]
          exact hfound other hother

-- A grammar that neither assigns nor mentions a local name.
def LocalFree : Prop :=
  ∀ assignment ∈ grammar.assignments, ¬ isLocal assignment.name ∧ assignment.rule.locals = []

theorem inlineAssignments_of_localFree (assignments : List (Assignment ω)) (pass : InliningPass ω)
    (h : ∀ assignment ∈ assignments, ¬ isLocal assignment.name ∧ assignment.rule.locals = []) :
    grammar.inlineAssignments assignments pass = (assignments, pass) := by
  induction assignments with
  | nil => rfl
  | cons assignment rest ih =>
      obtain ⟨⟨hlocal, hlocals⟩, hrest⟩ := List.forall_mem_cons.mp h
      rw [inlineAssignments, if_neg hlocal, assignment.rule.inlined_of_locals _ _ hlocals]
      simp only [ih hrest]

theorem LocalFree.inlineLocals (h : grammar.LocalFree) :
    grammar.inlineLocals = ({ grammar with start := none }, []) := by
  simp only [Grammar.inlineLocals, grammar.inlineAssignments_of_localFree _ _ h]

-- The names on a path are different ones, so at the depth that is given no
-- name is reported for the depth alone.
theorem resolveLocal_succ (depth : Nat) (path : List String) (hnodup : path.Nodup)
    (hsub : path ⊆ grammar.names) (hdepth : grammar.assignments.length ≤ depth + path.length) :
    grammar.resolveLocal (depth + 1) path = grammar.resolveLocal depth path := by
  induction depth generalizing path with
  | zero =>
      funext name pass
      cases hname : pass.resolved.lookup name with
      | some rule => simp only [resolveLocal, hname]
      | none =>
          cases hrule : grammar.rule? name with
          | none => simp only [resolveLocal, hname, hrule]
          | some rule =>
              have hpath : name ∈ path := by
                by_contra hpath
                have hlt := grammar.length_path_lt path name hnodup hsub
                  (grammar.mem_names_of_rule? name rule hrule) hpath
                omega
              simp [resolveLocal, hname, hrule, hpath]
  | succ depth ih =>
      funext name pass
      cases hname : pass.resolved.lookup name with
      | some rule => simp only [resolveLocal, hname]
      | none =>
          cases hrule : grammar.rule? name with
          | none => simp only [resolveLocal, hname, hrule]
          | some rule =>
              by_cases hpath : name ∈ path
              · simp [resolveLocal, hname, hrule, hpath]
              have hdeeper := ih (name :: path) (List.nodup_cons.mpr ⟨hpath, hnodup⟩)
                (List.cons_subset.mpr ⟨grammar.mem_names_of_rule? name rule hrule, hsub⟩)
                (by simp only [List.length_cons]; omega)
              rw [resolveLocal, resolveLocal, hname, hrule]
              simp only [hdeeper]

end Passes

end PhraseGrammar.Grammar
