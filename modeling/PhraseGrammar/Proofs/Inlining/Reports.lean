import PhraseGrammar.Proofs.Grammar.Reachable
import PhraseGrammar.Proofs.Inlining.Needed

namespace PhraseGrammar.Grammar

variable {ω : Type}

section Reports

variable (grammar : Grammar ω)

theorem resolveLocal_add (more : Nat) :
    grammar.resolveLocal (grammar.assignments.length + more) [] =
      grammar.resolveLocal grammar.assignments.length [] := by
  induction more with
  | zero => rfl
  | succ more ih =>
      rw [← Nat.add_assoc, grammar.resolveLocal_succ _ [] List.nodup_nil (List.nil_subset _)
        (by simp only [List.length_nil]; omega), ih]

-- A missing local name is reported once for each time that it occurs in a rule
-- that is kept or in the rule of a needed name.
theorem count_missingLocal (hnodup : grammar.names.Nodup) (name : String) :
    grammar.inlineLocals.2.count (.missingLocal name) =
      if name ∈ grammar.names then 0
      else (outerLocals grammar.assignments ++ grammar.innerLocals).count name := by
  obtain ⟨given, last, hwalk, hreports, hnames, hall⟩ := grammar.exists_wholeWalk
  rw [← hreports]
  by_cases hname : name ∈ grammar.names
  · rw [if_pos hname, List.count_eq_zero]
    intro hmem
    rcases hwalk.missing_unassigned name hmem with hnone | hnot
    · simp at hnone
    · exact hnot hname
  · have hcount := hwalk.count_missing name hname (List.forall_mem_nil _)
    rw [grammar.count_innerLocals hnodup last.names hnames hall] at hcount
    rw [if_neg hname, List.count_append]
    simpa [InliningPass.names] using hcount

-- A report of recursion names a needed local name that leads back to itself.
theorem transGen_of_recursiveExpansion (name : String)
    (h : .recursiveExpansion name ∈ grammar.inlineLocals.2) :
    grammar.Needed name ∧ Relation.TransGen grammar.RefersLocally name name := by
  obtain ⟨given, last, hwalk, hreports, _, _⟩ := grammar.exists_wholeWalk
  refine hwalk.cycles (fun other hother => ?_) (List.forall_mem_nil _) (fun _ => nofun) name
    (hreports ▸ h)
  obtain ⟨assignment, hassignment, hkept, hlocal⟩ := (grammar.mem_outerLocals_iff other).mp hother
  exact .outer assignment other hassignment hkept hlocal

-- No cycle of needed names goes unreported.
theorem exists_recursiveExpansion (name : String) (hneeded : grammar.Needed name)
    (hcycle : Relation.TransGen grammar.RefersLocally name name) :
    ∃ other, .recursiveExpansion other ∈ grammar.inlineLocals.2 := by
  obtain ⟨given, last, hwalk, hreports, _, hall⟩ := grammar.exists_wholeWalk
  by_contra hnone
  rw [← hreports, not_exists] at hnone
  obtain ⟨hdescends, _⟩ := hwalk.descends hnone (List.forall_mem_nil _) .nil
  obtain ⟨_, _, hlast⟩ := Relation.TransGen.tail'_iff.mp hcycle
  have hmem := (hall name).mpr ⟨hneeded, hlast.mem_names _ name⟩
  exact hdescends.no_cycle last.names name hmem hcycle

-- After an inlining without a report there is nothing left to inline.
theorem localFree_inlineLocals (h : grammar.inlineLocals.2 = []) :
    grammar.inlineLocals.1.LocalFree := by
  refine fun assignment hassignment => ⟨?_, ?_⟩
  · have hname : assignment.name ∈ grammar.inlineLocals.1.names :=
      List.mem_map_of_mem hassignment
    rw [names_inlineLocals] at hname
    simpa using List.of_mem_filter hname
  · refine List.eq_nil_iff_forall_not_mem.mpr fun name hname => ?_
    have hnoted := grammar.noted_inlineLocals assignment hassignment name hname
    simp [Noted, h] at hnoted

theorem inlineLocals_inlineLocals (h : grammar.inlineLocals.2 = []) :
    grammar.inlineLocals.1.inlineLocals = (grammar.inlineLocals.1, []) :=
  (grammar.localFree_inlineLocals h).inlineLocals

end Reports

-- What inlining reports is what is wrong, and all of it. It comes to an end
-- without regard to any depth. Every occurrence of a missing local name is
-- reported once, and a cycle by a name on it. What is left of local names has
-- been reported.
theorem inlineLocals_reports_exactly [Weight ω] (grammar : Grammar ω) (h : grammar.Reachable) :
    (∃ given last, grammar.LocalWalk [] (outerLocals grammar.assignments) ⟨[], []⟩ given last ∧
        last.reports = grammar.inlineLocals.2) ∧
      (∀ more, grammar.resolveLocal (grammar.assignments.length + more) [] =
        grammar.resolveLocal grammar.assignments.length []) ∧
      (∀ report ∈ grammar.inlineLocals.2, Unresolved report) ∧
      (∀ name, grammar.inlineLocals.2.count (.missingLocal name) =
        if name ∈ grammar.names then 0
        else (outerLocals grammar.assignments ++ grammar.innerLocals).count name) ∧
      ((∃ name, .recursiveExpansion name ∈ grammar.inlineLocals.2) ↔
        ∃ name, grammar.Needed name ∧ Relation.TransGen grammar.RefersLocally name name) ∧
      (∀ name, .recursiveExpansion name ∈ grammar.inlineLocals.2 →
        grammar.Needed name ∧ Relation.TransGen grammar.RefersLocally name name) ∧
      grammar.inlineLocals.1.names = grammar.names.filter (!isLocal ·) ∧
      (∀ assignment ∈ grammar.inlineLocals.1.assignments, ∀ name ∈ assignment.rule.locals,
        Noted grammar.inlineLocals.2 name) ∧
      (grammar.inlineLocals.2 = [] →
        grammar.inlineLocals.1.LocalFree ∧
          grammar.inlineLocals.1.inlineLocals = (grammar.inlineLocals.1, [])) := by
  obtain ⟨given, last, hwalk, hreports, _⟩ := grammar.exists_wholeWalk
  refine ⟨⟨given, last, hwalk, hreports⟩, grammar.resolveLocal_add,
    grammar.unresolved_inlineLocals, grammar.count_missingLocal h.settled.nodup, ?_,
    grammar.transGen_of_recursiveExpansion, grammar.names_inlineLocals,
    grammar.noted_inlineLocals, fun hnone =>
      ⟨grammar.localFree_inlineLocals hnone, grammar.inlineLocals_inlineLocals hnone⟩⟩
  constructor
  · rintro ⟨name, hname⟩
    exact ⟨name, grammar.transGen_of_recursiveExpansion name hname⟩
  · rintro ⟨name, hneeded, hcycle⟩
    exact grammar.exists_recursiveExpansion name hneeded hcycle

-- A rule of a single choice with references to some names.
def referring (names : List String) : Rule Rat :=
  .ofChoices [names.foldl (fun choice name => choice.push (.reference name none)) Choice.empty]
    false [] none

-- Two local names that refer to each other, with a missing one in between.
def tangled : Grammar Rat :=
  (((empty.insert "_a" (referring ["_b", "_x"])).1.insert "main"
    (referring ["_a", "_b", "_x"])).1.insert "_b" (referring ["_x", "_a"])).1

def untangled : Grammar Rat :=
  ((empty.insert "_a" (referring ["b"])).1.insert "main" (referring ["_a", "_a"])).1

theorem inlineLocals_tangled_reports :
    tangled.inlineLocals.2 = [.missingLocal "_x", .recursiveExpansion "_a", .missingLocal "_x",
        .missingLocal "_x"] ∧
      (outerLocals tangled.assignments ++ tangled.innerLocals).count "_x" = 3 ∧
      Relation.TransGen tangled.RefersLocally "_a" "_a" ∧
      untangled.inlineLocals.1.inlineLocals = (untangled.inlineLocals.1, []) := by
  have htangled : tangled.Reachable := .insert _ _ _ (.insert _ _ _ (.insert _ _ _ .empty))
  have huntangled : untangled.Reachable := .insert _ _ _ (.insert _ _ _ .empty)
  obtain ⟨_, _, _, hcount, _, hcycle, _⟩ := inlineLocals_reports_exactly tangled htangled
  obtain ⟨_, _, _, _, _, _, _, _, hagain⟩ := inlineLocals_reports_exactly untangled huntangled
  refine ⟨by decide, ?_, (hcycle "_a" (by decide)).2, (hagain (by decide)).2⟩
  rw [← show tangled.inlineLocals.2.count (.missingLocal "_x") = 3 by decide, hcount,
    if_neg (by decide)]

end PhraseGrammar.Grammar
