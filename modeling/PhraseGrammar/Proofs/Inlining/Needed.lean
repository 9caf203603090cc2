import PhraseGrammar.Proofs.Inlining.Remaining

namespace PhraseGrammar.Grammar

variable {ω : Type}

-- The local names that inlining has to resolve: those in the rules that are
-- kept, and those in the rules of such names.
inductive Needed (grammar : Grammar ω) : String → Prop
  | outer (assignment : Assignment ω) (name : String)
      (hassignment : assignment ∈ grammar.assignments) (hkept : ¬ isLocal assignment.name)
      (hname : name ∈ assignment.rule.locals) : Needed grammar name
  | inner (name : String) (rule : Rule ω) (other : String) (hneeded : Needed grammar name)
      (hrule : grammar.rule? name = some rule) (hother : other ∈ rule.locals) :
      Needed grammar other

variable (grammar : Grammar ω)

theorem mem_outerLocals_iff (name : String) :
    name ∈ outerLocals grammar.assignments ↔
      ∃ assignment ∈ grammar.assignments, ¬ isLocal assignment.name ∧
        name ∈ assignment.rule.locals := by
  simp only [outerLocals, List.mem_flatMap, List.mem_filter, Bool.not_eq_true',
    Bool.not_eq_true, and_assoc]

-- The local names in the rule of a name.
def localsOf (name : String) : List String :=
  ((grammar.rule? name).map Rule.locals).getD []

theorem refersLocally_of_mem_locals (name : String) (rule : Rule ω) (other : String)
    (hrule : grammar.rule? name = some rule) (hother : other ∈ rule.locals)
    (hassigned : other ∈ grammar.names) : grammar.RefersLocally name other := by
  obtain ⟨hmention, hlocal⟩ := List.mem_filter.mp hother
  exact ⟨hlocal, rule, hrule, hmention, hassigned⟩

variable {grammar}

theorem RefersLocally.mem_locals (name other : String) (rule : Rule ω)
    (h : grammar.RefersLocally name other) (hrule : grammar.rule? name = some rule) :
    other ∈ rule.locals := by
  obtain ⟨hlocal, found, hfound, hmention, _⟩ := h
  obtain rfl : rule = found := Option.some.inj (hrule.symm.trans hfound)
  exact List.mem_filter.mpr ⟨hmention, hlocal⟩

theorem RefersLocally.mem_names (name other : String) (h : grammar.RefersLocally name other) :
    other ∈ grammar.names := by
  obtain ⟨_, _, _, _, hassigned⟩ := h
  exact hassigned

section Walk

variable {path names : List String} {pass last : InliningPass ω}
  {given : List (Option (Rule ω))} (h : grammar.LocalWalk path names pass given last)

include h

-- Only names that are assigned are resolved. They have every property that
-- passes from a name to the local names in its rule.
theorem LocalWalk.forall_names (good : String → Prop)
    (hpasses : ∀ name rule, good name → grammar.rule? name = some rule →
      ∀ other ∈ rule.locals, good other)
    (hnames : ∀ name ∈ names, good name)
    (hpass : ∀ name ∈ pass.names, good name ∧ name ∈ grammar.names) :
    ∀ name ∈ last.names, good name ∧ name ∈ grammar.names := by
  induction h with
  | nil => exact hpass
  | resolved _ _ _ _ _ _ _ _ _ ih => exact ih (List.forall_mem_cons.mp hnames).2 hpass
  | missing _ _ _ _ _ _ _ _ _ ih => exact ih (List.forall_mem_cons.mp hnames).2 hpass
  | cycle _ _ _ _ _ _ _ _ _ _ _ ih => exact ih (List.forall_mem_cons.mp hnames).2 hpass
  | visit _ name _ _ _ _ _ _ rule _ hrule _ _ _ ihinner ihrest =>
      obtain ⟨hname, hmore⟩ := List.forall_mem_cons.mp hnames
      have hmiddle := ihinner (hpasses name rule hname hrule) hpass
      exact ihrest hmore
        (List.forall_mem_cons.mpr ⟨⟨hname, grammar.mem_names_of_rule? name rule hrule⟩, hmiddle⟩)

theorem LocalWalk.assigned (hpass : ∀ name ∈ pass.names, name ∈ grammar.names) :
    ∀ name ∈ last.names, name ∈ grammar.names := by
  have hall := h.forall_names (fun _ => True) (fun _ _ _ _ _ _ => trivial) (fun _ _ => trivial)
    fun name hname => ⟨trivial, hpass name hname⟩
  exact fun name hname => (hall name hname).2

-- No name is resolved twice, and none that is on the path.
theorem LocalWalk.nodup (hpass : pass.names.Nodup) (hpath : ∀ name ∈ path, name ∉ pass.names) :
    last.names.Nodup ∧ ∀ name ∈ path, name ∉ last.names := by
  induction h with
  | nil => exact ⟨hpass, hpath⟩
  | resolved _ _ _ _ _ _ _ _ _ ih => exact ih hpass hpath
  | missing _ _ _ _ _ _ _ _ _ ih => exact ih hpass hpath
  | cycle _ _ _ _ _ _ _ _ _ _ _ ih => exact ih hpass hpath
  | visit path name _ pass middle _ _ _ _ hname _ hnew _ _ ihinner ihrest =>
      have hfresh := (lookup_eq_none_iff _ name).mp hname
      obtain ⟨hmiddle, hapart⟩ := ihinner hpass (List.forall_mem_cons.mpr ⟨hfresh, hpath⟩)
      obtain ⟨hnone, hothers⟩ := List.forall_mem_cons.mp hapart
      refine ihrest (List.nodup_cons.mpr ⟨hnone, hmiddle⟩) fun other hother hmem => ?_
      rcases List.mem_cons.mp hmem with rfl | hmem
      · exact hnew hother
      · exact hothers other hother hmem

-- A name that is assigned is resolved in the end, or it is on the path. What
-- has been resolved needs no other name, but for those on the path.
theorem LocalWalk.closed
    (hpass : ∀ name ∈ pass.names, ∀ other, grammar.RefersLocally name other →
      other ∈ pass.names ∨ other ∈ path) :
    (∀ name ∈ names, name ∈ grammar.names → name ∈ last.names ∨ name ∈ path) ∧
      ∀ name ∈ last.names, ∀ other, grammar.RefersLocally name other →
        other ∈ last.names ∨ other ∈ path := by
  induction h with
  | nil => exact ⟨List.forall_mem_nil _, hpass⟩
  | resolved _ name _ pass _ _ rule hname hrest ih =>
      obtain ⟨hmore, hlast⟩ := ih hpass
      refine ⟨List.forall_mem_cons.mpr ⟨fun _ => .inl ?_, hmore⟩, hlast⟩
      exact hrest.names_subset (mem_names_of_lookup pass.resolved name rule hname)
  | missing _ name _ _ _ _ _ hrule _ ih =>
      obtain ⟨hmore, hlast⟩ := ih hpass
      refine ⟨List.forall_mem_cons.mpr ⟨fun hassigned => ?_, hmore⟩, hlast⟩
      exact absurd hassigned ((grammar.rule?_eq_none_iff name).mp hrule)
  | cycle _ name _ _ _ _ _ _ _ hpath _ ih =>
      obtain ⟨hmore, hlast⟩ := ih hpass
      exact ⟨List.forall_mem_cons.mpr ⟨fun _ => .inr hpath, hmore⟩, hlast⟩
  | visit path name _ pass middle _ inner _ rule _ hrule _ _ hrest ihinner ihrest =>
      have hdeeper : ∀ one ∈ pass.names, ∀ other, grammar.RefersLocally one other →
          other ∈ pass.names ∨ other ∈ name :: path := fun one hone other hrefers =>
        (hpass one hone other hrefers).imp_right (List.mem_cons_of_mem name)
      obtain ⟨hlocals, hmiddle⟩ := ihinner hdeeper
      -- The name leaves the path as it is resolved.
      have hmoved (other : String) (hother : other ∈ middle.names ∨ other ∈ name :: path) :
          other ∈ (middle.resolve name (rule.resolved inner)).names ∨ other ∈ path := by
        rcases hother with hother | hother
        · exact .inl (List.mem_cons_of_mem _ hother)
        · rcases List.mem_cons.mp hother with rfl | hother
          · exact .inl List.mem_cons_self
          · exact .inr hother
      have hown (other : String) (hrefers : grammar.RefersLocally name other) :=
        hmoved other (hlocals other (hrefers.mem_locals name other rule hrule)
          (hrefers.mem_names name other))
      obtain ⟨hmore, hlast⟩ := ihrest (List.forall_mem_cons.mpr
        ⟨hown, fun one hone other hrefers => hmoved other (hmiddle one hone other hrefers)⟩)
      refine ⟨List.forall_mem_cons.mpr ⟨fun _ => .inl ?_, hmore⟩, hlast⟩
      exact hrest.names_subset List.mem_cons_self

-- Along the path each name leads to the next, and the last one to those that
-- are to be resolved. So a name that is met again has a way back to itself.
theorem LocalWalk.cycles (hnames : ∀ name ∈ names, grammar.Needed name)
    (hpath : ∀ one ∈ path, ∀ name ∈ names, name ∈ grammar.names →
      Relation.TransGen grammar.RefersLocally one name)
    (hpass : ∀ name, .recursiveExpansion name ∈ pass.reports →
      grammar.Needed name ∧ Relation.TransGen grammar.RefersLocally name name) :
    ∀ name, .recursiveExpansion name ∈ last.reports →
      grammar.Needed name ∧ Relation.TransGen grammar.RefersLocally name name := by
  induction h with
  | nil => exact hpass
  | resolved _ _ _ _ _ _ _ _ _ ih =>
      exact ih (List.forall_mem_cons.mp hnames).2
        (fun one hone => (List.forall_mem_cons.mp (hpath one hone)).2) hpass
  | missing _ name _ pass _ _ _ _ _ ih =>
      refine ih (List.forall_mem_cons.mp hnames).2
        (fun one hone => (List.forall_mem_cons.mp (hpath one hone)).2) fun other hother => ?_
      rcases List.mem_append.mp hother with hother | hother
      · exact hpass other hother
      · simp at hother
  | cycle _ name _ pass _ _ rule _ hrule hmet _ ih =>
      refine ih (List.forall_mem_cons.mp hnames).2
        (fun one hone => (List.forall_mem_cons.mp (hpath one hone)).2) fun other hother => ?_
      rcases List.mem_append.mp hother with hother | hother
      · exact hpass other hother
      · obtain rfl : other = name := by simpa using hother
        exact ⟨(List.forall_mem_cons.mp hnames).1, hpath other hmet other List.mem_cons_self
          (grammar.mem_names_of_rule? other rule hrule)⟩
  | visit path name _ _ _ _ _ _ rule _ hrule _ _ _ ihinner ihrest =>
      obtain ⟨hname, hmore⟩ := List.forall_mem_cons.mp hnames
      have hassigned := grammar.mem_names_of_rule? name rule hrule
      have hstep (other : String) (hother : other ∈ rule.locals) (hmem : other ∈ grammar.names) :=
        grammar.refersLocally_of_mem_locals name rule other hrule hother hmem
      refine ihrest hmore (fun one hone => (List.forall_mem_cons.mp (hpath one hone)).2) ?_
      refine ihinner (fun other hother => .inner name rule other hname hrule hother) ?_ hpass
      refine List.forall_mem_cons.mpr ⟨fun other hother hmem => .single (hstep other hother hmem),
        fun one hone other hother hmem => ?_⟩
      exact (hpath one hone name List.mem_cons_self hassigned).tail (hstep other hother hmem)

-- Without a report of a cycle, names are resolved below the names that refer to
-- them.
theorem LocalWalk.descends (hreports : ∀ name, .recursiveExpansion name ∉ last.reports)
    (hpath : ∀ name ∈ path, name ∉ pass.names)
    (hpass : Descends grammar.RefersLocally pass.names) :
    Descends grammar.RefersLocally last.names ∧
      ∀ name ∈ names, name ∈ grammar.names → name ∈ last.names := by
  induction h with
  | nil => exact ⟨hpass, List.forall_mem_nil _⟩
  | resolved _ name _ pass _ _ rule hname hrest ih =>
      obtain ⟨hlast, hmore⟩ := ih hreports hpath hpass
      refine ⟨hlast, List.forall_mem_cons.mpr ⟨fun _ => ?_, hmore⟩⟩
      exact hrest.names_subset (mem_names_of_lookup pass.resolved name rule hname)
  | missing _ name _ _ _ _ _ hrule _ ih =>
      obtain ⟨hlast, hmore⟩ := ih hreports hpath hpass
      refine ⟨hlast, List.forall_mem_cons.mpr ⟨fun hassigned => ?_, hmore⟩⟩
      exact absurd hassigned ((grammar.rule?_eq_none_iff name).mp hrule)
  | cycle _ name _ _ _ _ _ _ _ _ hrest _ =>
      refine absurd (hrest.reports_prefix.subset ?_) (hreports name)
      exact List.mem_append_right _ List.mem_cons_self
  | visit path name _ pass middle _ inner _ rule hname hrule hnew hinner hrest ihinner ihrest =>
      have hmiddle (other : String) : .recursiveExpansion other ∉ middle.reports := fun hmem =>
        hreports other (hrest.reports_prefix.subset hmem)
      have hdeeper : ∀ other ∈ name :: path, other ∉ pass.names :=
        List.forall_mem_cons.mpr ⟨(lookup_eq_none_iff _ name).mp hname, hpath⟩
      obtain ⟨hbelow, hlocals⟩ := ihinner hmiddle hdeeper hpass
      obtain ⟨hfresh, hothers⟩ :=
        List.forall_mem_cons.mp (hinner.nodup hpass.nodup hdeeper).2
      have hown (other : String) (hrefers : grammar.RefersLocally name other) :
          other ∈ middle.names :=
        hlocals other (hrefers.mem_locals name other rule hrule) (hrefers.mem_names name other)
      have hapart (other : String) (hother : other ∈ path) : other ∉ name :: middle.names := by
        refine fun hmem => hothers other hother (List.mem_of_ne_of_mem ?_ hmem)
        exact fun he => hnew (he ▸ hother)
      obtain ⟨hlast, hmore⟩ :=
        ihrest hreports hapart (.cons name middle.names hfresh hown hbelow)
      refine ⟨hlast, List.forall_mem_cons.mpr ⟨fun _ => ?_, hmore⟩⟩
      exact hrest.names_subset List.mem_cons_self

-- Each local name that is not assigned is reported for each time that it is
-- asked for: once for each occurrence in a list that is walked along, which the
-- rules of the names that have been resolved are.
theorem LocalWalk.count_missing (name : String) (hname : name ∉ grammar.names)
    (hpass : ∀ other ∈ pass.names, other ∈ grammar.names) :
    last.reports.count (.missingLocal name) + (pass.names.flatMap grammar.localsOf).count name =
      pass.reports.count (.missingLocal name) + names.count name +
        (last.names.flatMap grammar.localsOf).count name := by
  induction h with
  | nil => simp
  | resolved _ other _ pass _ _ rule hfound _ ih =>
      have hne : other ≠ name := fun he =>
        hname (he ▸ hpass other (mem_names_of_lookup pass.resolved other rule hfound))
      rw [ih hpass, List.count_cons_of_ne hne]
  | missing _ other _ pass _ _ _ _ _ ih =>
      have hrest := ih hpass
      have hcount : (pass.report (.missingLocal other)).reports.count (.missingLocal name) =
          pass.reports.count (.missingLocal name) + if other = name then 1 else 0 := by
        simp [InliningPass.report, List.count_append, List.count_singleton]
      rw [hcount] at hrest
      simp only [List.count_cons, beq_iff_eq]
      simp only [InliningPass.names, InliningPass.report] at hrest ⊢
      omega
  | cycle _ other _ pass _ _ rule _ hrule _ _ ih =>
      have hne : other ≠ name := fun he =>
        hname (he ▸ grammar.mem_names_of_rule? other rule hrule)
      have hrest := ih hpass
      have hcount : (pass.report (.recursiveExpansion other)).reports.count (.missingLocal name) =
          pass.reports.count (.missingLocal name) := by
        simp [InliningPass.report, List.count_append]
      rw [hcount] at hrest
      rw [List.count_cons_of_ne hne]
      exact hrest
  | visit _ other _ pass middle _ inner _ rule _ hrule _ hinner _ ihinner ihrest =>
      have hassigned := grammar.mem_names_of_rule? other rule hrule
      have hne : other ≠ name := fun he => hname (he ▸ hassigned)
      have hlocals : grammar.localsOf other = rule.locals := by
        rw [localsOf, hrule, Option.map_some, Option.getD_some]
      have hdeeper := ihinner hpass
      have hrest := ihrest (List.forall_mem_cons.mpr ⟨hassigned, hinner.assigned hpass⟩)
      have hmoved : ((middle.resolve other (rule.resolved inner)).names.flatMap
          grammar.localsOf).count name =
            rule.locals.count name + (middle.names.flatMap grammar.localsOf).count name := by
        rw [← hlocals, ← List.count_append]
        rfl
      rw [hmoved] at hrest
      rw [List.count_cons_of_ne hne]
      simp only [InliningPass.resolve] at hrest
      omega

theorem LocalWalk.missing_unassigned (name : String)
    (hlast : .missingLocal name ∈ last.reports) :
    .missingLocal name ∈ pass.reports ∨ name ∉ grammar.names := by
  induction h with
  | nil => exact .inl hlast
  | resolved _ _ _ _ _ _ _ _ _ ih => exact ih hlast
  | missing _ other _ pass _ _ _ hrule _ ih =>
      refine (ih hlast).elim (fun hmem => ?_) .inr
      rcases List.mem_append.mp hmem with hold | hnew
      · exact .inl hold
      · obtain rfl : name = other := by simpa using hnew
        exact .inr ((grammar.rule?_eq_none_iff name).mp hrule)
  | cycle _ _ _ pass _ _ _ _ _ _ _ ih =>
      refine (ih hlast).imp_left fun hmem => ?_
      simpa [InliningPass.report] using hmem
  | visit _ _ _ _ _ _ _ _ _ _ _ _ _ _ ihinner ihrest =>
      exact (ihrest hlast).elim ihinner .inr

end Walk

section Whole

variable (grammar : Grammar ω)

open Classical in
-- The local names in the rules of the names that are needed, each as often as
-- it occurs.
noncomputable def innerLocals : List String :=
  (grammar.assignments.filter fun assignment => grammar.Needed assignment.name).flatMap
    (·.rule.locals)

-- What a whole pass comes to: the names that are needed and assigned have been
-- resolved, each of them once.
theorem exists_wholeWalk : ∃ given last,
    grammar.LocalWalk [] (outerLocals grammar.assignments) ⟨[], []⟩ given last ∧
      last.reports = grammar.inlineLocals.2 ∧ last.names.Nodup ∧
      ∀ name, name ∈ last.names ↔ grammar.Needed name ∧ name ∈ grammar.names := by
  obtain ⟨given, hwalk⟩ := grammar.localWalk_inlineAssignments grammar.assignments ⟨[], []⟩
  have houter : ∀ name ∈ outerLocals grammar.assignments, grammar.Needed name := by
    intro name hname
    obtain ⟨assignment, hassignment, hkept, hlocal⟩ := (grammar.mem_outerLocals_iff name).mp hname
    exact .outer assignment name hassignment hkept hlocal
  have hforward := hwalk.forall_names grammar.Needed
    (fun name rule hneeded hrule other hother => .inner name rule other hneeded hrule hother)
    houter (List.forall_mem_nil _)
  obtain ⟨hasked, hclosed⟩ := hwalk.closed (List.forall_mem_nil _)
  simp only [List.not_mem_nil, or_false] at hasked hclosed
  refine ⟨given, _, hwalk, rfl, (hwalk.nodup List.nodup_nil (List.forall_mem_nil _)).1,
    fun name => ⟨hforward name, fun hboth => ?_⟩⟩
  obtain ⟨hneeded, hassigned⟩ := hboth
  induction hneeded with
  | outer assignment name hassignment hkept hname =>
      exact hasked name
        ((grammar.mem_outerLocals_iff name).mpr ⟨assignment, hassignment, hkept, hname⟩) hassigned
  | inner name rule other _ hrule hother ih =>
      have hname := ih (grammar.mem_names_of_rule? name rule hrule)
      exact hclosed name hname other
        (grammar.refersLocally_of_mem_locals name rule other hrule hother hassigned)

-- With one rule to a name, the rules of the names that have been resolved are
-- those of the needed names.
theorem count_innerLocals (hnodup : grammar.names.Nodup) (names : List String)
    (hnames : names.Nodup)
    (hall : ∀ name, name ∈ names ↔ grammar.Needed name ∧ name ∈ grammar.names) (name : String) :
    (names.flatMap grammar.localsOf).count name = grammar.innerLocals.count name := by
  classical
  have hfilter : (grammar.assignments.filter fun assignment =>
      grammar.Needed assignment.name).map Assignment.name =
        grammar.names.filter fun name => grammar.Needed name := by
    rw [Grammar.names, List.filter_map]
    rfl
  have hperm : names.Perm (grammar.names.filter fun name => grammar.Needed name) := by
    rw [List.perm_ext_iff_of_nodup hnames (hnodup.filter _)]
    intro other
    simp [hall, and_comm]
  have hlocals : ∀ assignment ∈ grammar.assignments,
      grammar.localsOf assignment.name = assignment.rule.locals := by
    intro assignment hassignment
    rw [localsOf, (grammar.rule?_eq_some_iff hnodup _ _).mpr hassignment, Option.map_some,
      Option.getD_some]
  have hbodies : grammar.innerLocals =
      (grammar.names.filter fun name => grammar.Needed name).flatMap grammar.localsOf := by
    rw [innerLocals, ← hfilter, List.flatMap_map]
    exact List.flatMap_congr fun assignment hassignment =>
      (hlocals assignment (List.mem_of_mem_filter hassignment)).symm
  rw [hbodies, (hperm.flatMap_right _).count_eq]

end Whole

end PhraseGrammar.Grammar
