import PhraseGrammar.Proofs.Grammar.Reachable
import PhraseGrammar.Proofs.Grammar.WellFormed

namespace PhraseGrammar.Grammar

variable {ω : Type}

section Lists

-- The rule that stands under a name in a list of assignments.
def ruleIn? (assignments : List (Assignment ω)) (name : String) : Option (Rule ω) :=
  (assignments.find? (·.name == name)).map Assignment.rule

theorem ruleIn?_cons (assignment : Assignment ω) (rest : List (Assignment ω)) (name : String) :
    ruleIn? (assignment :: rest) name =
      if assignment.name = name then some assignment.rule else ruleIn? rest name := by
  unfold ruleIn?
  by_cases h : assignment.name = name <;> simp [h]

theorem ruleIn?_eq_none (assignments : List (Assignment ω)) (name : String)
    (h : name ∉ assignments.map Assignment.name) : ruleIn? assignments name = none := by
  induction assignments with
  | nil => rfl
  | cons assignment rest ih =>
      rw [List.map_cons, List.mem_cons, not_or] at h
      rw [ruleIn?_cons, if_neg (Ne.symm h.1), ih h.2]

theorem overwrite_cons (first assignment : Assignment ω) (rest : List (Assignment ω)) :
    overwrite (first :: rest) assignment =
      if first.name = assignment.name then (assignment :: rest, [.duplicate assignment.name])
      else (first :: (overwrite rest assignment).1, (overwrite rest assignment).2) := by
  by_cases h : first.name = assignment.name
  · simp [overwrite, List.findIdx?_cons, h]
  · cases hrest : rest.findIdx? (·.name == assignment.name) <;>
      simp [overwrite, List.findIdx?_cons, h, hrest]

theorem ruleIn?_overwrite (assignments : List (Assignment ω)) (assignment : Assignment ω)
    (name : String) :
    ruleIn? (overwrite assignments assignment).1 name =
      if assignment.name = name then some assignment.rule else ruleIn? assignments name := by
  induction assignments with
  | nil => exact ruleIn?_cons assignment [] name
  | cons first rest ih =>
      rw [overwrite_cons]
      by_cases h : first.name = assignment.name
      · rw [if_pos h, ruleIn?_cons, ruleIn?_cons, h]
        split <;> rfl
      · rw [if_neg h, ruleIn?_cons, ruleIn?_cons, ih]
        by_cases hname : assignment.name = name
        · rw [if_pos hname, if_pos hname, if_neg (hname ▸ h)]
        · rw [if_neg hname, if_neg hname]

theorem reports_overwrite (assignments : List (Assignment ω)) (assignment : Assignment ω) :
    (overwrite assignments assignment).2 =
      if assignment.name ∈ assignments.map Assignment.name then [.duplicate assignment.name]
      else [] := by
  induction assignments with
  | nil => rfl
  | cons first rest ih =>
      rw [overwrite_cons]
      by_cases h : first.name = assignment.name
      · simp [h]
      · simp only [if_neg h, ih, List.map_cons, List.mem_cons, Ne.symm h, false_or]

-- Overwriting one name makes no difference to which of the others are there.
theorem mem_names_overwrite (assignments : List (Assignment ω)) (assignment : Assignment ω)
    (names : List String) (hnew : assignment.name ∉ names) :
    ∀ name ∈ names, (name ∈ (overwrite assignments assignment).1.map Assignment.name ↔
      name ∈ assignments.map Assignment.name) := by
  intro name hname
  have hne : name ≠ assignment.name := fun he => hnew (he ▸ hname)
  rw [names_overwrite]
  split
  · rfl
  · rw [List.mem_append, List.mem_singleton, or_iff_left hne]

theorem filter_mem_overwrite (assignments : List (Assignment ω)) (assignment : Assignment ω)
    (names : List String) (hnew : assignment.name ∉ names) :
    names.filter (· ∈ (overwrite assignments assignment).1.map Assignment.name) =
      names.filter (· ∈ assignments.map Assignment.name) := by
  apply List.filter_congr
  intro name hname
  exact decide_eq_decide.mpr (mem_names_overwrite assignments assignment names hnew name hname)

theorem filter_notMem_overwrite (assignments : List (Assignment ω)) (assignment : Assignment ω)
    (names : List String) (hnew : assignment.name ∉ names) :
    names.filter (· ∉ (overwrite assignments assignment).1.map Assignment.name) =
      names.filter (· ∉ assignments.map Assignment.name) := by
  apply List.filter_congr
  intro name hname
  have hsame := mem_names_overwrite assignments assignment names hnew name hname
  exact decide_eq_decide.mpr (not_congr hsame)

variable (assignments others : List (Assignment ω)) (h : (others.map Assignment.name).Nodup)

include h

theorem ruleIn?_overwriteAll (name : String) :
    ruleIn? (overwriteAll assignments others).1 name =
      ((ruleIn? others name).map Rule.unlinked).or (ruleIn? assignments name) := by
  induction others generalizing assignments with
  | nil => rfl
  | cons other rest ih =>
      obtain ⟨hnew, hrest⟩ := List.nodup_cons.mp h
      have hstep := ih (overwrite assignments ⟨other.name, other.rule.unlinked⟩).1 hrest
      rw [ruleIn?_overwrite] at hstep
      refine hstep.trans ?_
      rw [ruleIn?_cons]
      by_cases he : other.name = name
      · rw [if_pos he, if_pos he, ruleIn?_eq_none rest name (he ▸ hnew)]
        rfl
      · rw [if_neg he, if_neg he]

theorem names_overwriteAll :
    (overwriteAll assignments others).1.map Assignment.name =
      assignments.map Assignment.name ++
        (others.map Assignment.name).filter (· ∉ assignments.map Assignment.name) := by
  induction others generalizing assignments with
  | nil => simp [overwriteAll]
  | cons other rest ih =>
      obtain ⟨hnew, hrest⟩ := List.nodup_cons.mp h
      have hstep := ih (overwrite assignments ⟨other.name, other.rule.unlinked⟩).1 hrest
      refine hstep.trans ?_
      rw [filter_notMem_overwrite assignments ⟨other.name, other.rule.unlinked⟩ _ hnew,
        names_overwrite, List.map_cons, List.filter_cons]
      by_cases hmem : other.name ∈ assignments.map Assignment.name <;> simp [hmem]

theorem reports_overwriteAll :
    (overwriteAll assignments others).2 =
      ((others.map Assignment.name).filter (· ∈ assignments.map Assignment.name)).map
        .duplicate := by
  induction others generalizing assignments with
  | nil => rfl
  | cons other rest ih =>
      obtain ⟨hnew, hrest⟩ := List.nodup_cons.mp h
      have hstep := ih (overwrite assignments ⟨other.name, other.rule.unlinked⟩).1 hrest
      rw [filter_mem_overwrite assignments ⟨other.name, other.rule.unlinked⟩ _ hnew] at hstep
      rw [overwriteAll]
      simp only [hstep, reports_overwrite, List.map_cons, List.filter_cons]
      by_cases hmem : other.name ∈ assignments.map Assignment.name <;> simp [hmem]

end Lists

-- The names that are in one of two lists, those of the second list first.
theorem filter_or_perm (names left right : List String) :
    (names.filter fun name => name ∈ left ∨ name ∈ right).Perm
      (names.filter (· ∈ right) ++ (names.filter (· ∉ right)).filter (· ∈ left)) := by
  have hsplit := List.filter_append_perm (fun name => decide (name ∈ right))
    (names.filter fun name => name ∈ left ∨ name ∈ right)
  refine hsplit.symm.trans (List.Perm.of_eq ?_)
  simp only [List.filter_filter]
  congr 1 <;> apply List.filter_congr <;> intro name _ <;>
    by_cases hname : name ∈ right <;> simp [hname]

section Merge

variable (grammar other : Grammar ω) (h : other.names.Nodup)

include h

-- Names of the other grammar that are new follow in their order.
theorem names_merge :
    (grammar.merge other).1.names =
      grammar.names ++ other.names.filter (· ∉ grammar.names) :=
  names_overwriteAll grammar.assignments other.assignments h

-- The other grammar wins.
theorem rule?_merge (name : String) :
    (grammar.merge other).1.rule? name =
      ((other.rule? name).map Rule.unlinked).or (grammar.rule? name) := by
  rw [rule?_eq_find?, rule?_eq_find?, rule?_eq_find?]
  exact ruleIn?_overwriteAll grammar.assignments other.assignments h name

theorem reports_merge :
    (grammar.merge other).2 = (other.names.filter (· ∈ grammar.names)).map .duplicate :=
  reports_overwriteAll grammar.assignments other.assignments h

-- A name keeps its place.
theorem indexOf?_merge (name : String) (index : Nat) (hindex : grammar.indexOf? name = some index) :
    (grammar.merge other).1.indexOf? name = some index := by
  rw [indexOf?] at hindex
  rw [indexOf?, grammar.names_merge other h, List.findIdx?_append, hindex, Option.some_or]

end Merge

-- The assignments are the names in their order with their rules.
theorem map_some_assignments (grammar : Grammar ω) (h : grammar.names.Nodup) :
    grammar.assignments.map some =
      grammar.names.map fun name => (grammar.rule? name).map (Assignment.mk name) := by
  rw [names, List.map_map]
  apply List.map_congr_left
  intro assignment hassignment
  have hrule := (grammar.rule?_eq_some_iff h assignment.name assignment.rule).mpr hassignment
  rw [Function.comp_apply, hrule, Option.map_some]

-- Grammars with the same names in the same order and the same rules under them
-- are the same.
theorem eq_of_rules (grammar other : Grammar ω) (hnodup : grammar.names.Nodup)
    (hnames : grammar.names = other.names)
    (hrules : ∀ name, grammar.rule? name = other.rule? name) (hstart : grammar.start = other.start)
    (hpasses : grammar.passes = other.passes) : grammar = other := by
  have hassignments : grammar.assignments = other.assignments := by
    apply List.map_injective_iff.mpr fun _ _ => Option.some.inj
    rw [grammar.map_some_assignments hnodup, other.map_some_assignments (hnames ▸ hnodup), hnames]
    simp only [hrules]
  cases grammar
  cases other
  simp_all

section WellFormed

variable [Weight ω] {mayName : String → Prop}

theorem WellFormed.rule?_merge (other : Grammar ω) (h : other.WellFormed mayName)
    (grammar : Grammar ω) (name : String) :
    (grammar.merge other).1.rule? name = (other.rule? name).or (grammar.rule? name) := by
  rw [Grammar.rule?_merge grammar other h.nodup, h.map_unlinked]

variable (grammar other third : Grammar ω) (h : grammar.WellFormed mayName)
  (ho : other.WellFormed mayName) (ht : third.WellFormed mayName)

include h ho

theorem WellFormed.merge : (grammar.merge other).1.WellFormed mayName where
  nodup := nodup_overwriteAll _ _ h.nodup
  isName := by
    rw [names_merge grammar other ho.nodup]
    refine List.forall_mem_append.mpr ⟨h.isName, fun name hname => ?_⟩
    exact ho.isName name (List.mem_of_mem_filter hname)
  rules := by
    intro assignment hassignment
    have hnodup : (grammar.merge other).1.names.Nodup := nodup_overwriteAll _ _ h.nodup
    have hrule := ((grammar.merge other).1.rule?_eq_some_iff hnodup _ _).mpr hassignment
    rw [ho.rule?_merge other grammar, Option.or_eq_some_iff] at hrule
    rcases hrule with hrule | ⟨_, hrule⟩
    · exact ho.rule? other _ _ hrule
    · exact h.rule? grammar _ _ hrule
  start := rfl
  passes := h.passes

include ht

-- In either order the last rule of a name counts, and the names stand in the
-- order in which they come first.
theorem WellFormed.merge_assoc :
    ((grammar.merge other).1.merge third).1 = (grammar.merge (other.merge third).1).1 := by
  have hfirst := h.merge grammar other ho
  have hlast := ho.merge other third ht
  have hleft := hfirst.merge _ third ht
  refine eq_of_rules _ _ hleft.nodup ?_ ?_ rfl rfl
  · rw [names_merge _ third ht.nodup, names_merge grammar _ hlast.nodup,
      names_merge grammar other ho.nodup, names_merge other third ht.nodup, List.filter_append,
      List.filter_filter, List.append_assoc]
    congr 2
    apply List.filter_congr
    intro name _
    by_cases hname : name ∈ grammar.names <;> simp [hname]
  · intro name
    rw [ht.rule?_merge third, ho.rule?_merge other, hlast.rule?_merge, ht.rule?_merge third,
      Option.or_assoc]

omit h in
-- What is reported differs in its order alone. A name of the third grammar that
-- both others have is reported once in either way.
theorem WellFormed.reports_merge_assoc :
    ((grammar.merge other).2 ++ ((grammar.merge other).1.merge third).2).Perm
      ((other.merge third).2 ++ (grammar.merge (other.merge third).1).2) := by
  have hlast := ho.merge other third ht
  rw [reports_merge grammar other ho.nodup, reports_merge _ third ht.nodup,
    reports_merge other third ht.nodup, reports_merge grammar _ hlast.nodup,
    names_merge grammar other ho.nodup, names_merge other third ht.nodup, ← List.map_append,
    ← List.map_append]
  apply List.Perm.map
  have hboth : third.names.filter (· ∈ grammar.names ++ other.names.filter (· ∉ grammar.names)) =
      third.names.filter fun name => name ∈ grammar.names ∨ name ∈ other.names := by
    apply List.filter_congr
    intro name _
    by_cases hname : name ∈ grammar.names <;> simp [hname]
  have hsplit := filter_or_perm third.names grammar.names other.names
  rw [hboth, List.filter_append]
  exact (hsplit.append_left _).trans (List.perm_append_comm_assoc _ _ _)

end WellFormed

theorem merge_empty (grammar : Grammar ω) (h : grammar.start = none) :
    (grammar.merge empty).1 = grammar ∧ (grammar.merge empty).2 = [] := by
  refine ⟨?_, rfl⟩
  cases grammar
  obtain rfl := h
  rfl

theorem WellFormed.empty_merge [Weight ω] {mayName : String → Prop} (grammar : Grammar ω)
    (h : grammar.WellFormed mayName) :
    (empty.merge grammar).1 = grammar ∧ (empty.merge grammar).2 = [] := by
  have hnames : (empty.merge grammar).1.names = grammar.names := by
    rw [names_merge empty grammar h.nodup]
    simp [empty, names]
  constructor
  · refine eq_of_rules _ _ (hnames ▸ h.nodup) hnames (fun name => ?_) h.start.symm h.passes.symm
    rw [Grammar.rule?_merge empty grammar h.nodup, h.map_unlinked]
    exact Option.or_none
  · rw [reports_merge empty grammar h.nodup]
    simp [empty, names]

end PhraseGrammar.Grammar
