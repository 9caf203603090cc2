import PhraseGrammar.Proofs.Binding.Layers
import PhraseGrammar.Proofs.Inlining.Locals

namespace PhraseGrammar.Grammar

variable {ω : Type}

-- What inlining has made of a grammar if nothing is reported: names that are
-- not local keep their rules, in which every local name is replaced by what it
-- is resolved to.
structure Inlining (grammar inlined : Grammar ω) (resolved : List (String × Rule ω)) : Prop where
  layers : grammar.Inlined resolved
  names : inlined.names = grammar.names.filter (!isLocal ·)
  rules (name : String) (hname : ¬ isLocal name) :
    inlined.rule? name =
      (grammar.rule? name).map fun rule => rule.inlinedBy (resolvedIn resolved)
  locals (name : String) (rule : Rule ω) (hname : ¬ isLocal name)
    (hrule : grammar.rule? name = some rule) :
    ∀ other ∈ rule.locals, (resolvedIn resolved other).isSome

theorem exists_inlining (grammar : Grammar ω) (h : grammar.inlineLocals.2 = []) :
    ∃ resolved, grammar.Inlining grammar.inlineLocals.1 resolved := by
  obtain ⟨hadvances, hassignments, hsome⟩ :=
    grammar.inlineAssignments_eq grammar.assignments ⟨[], []⟩ h
  refine ⟨_, hadvances.inlined .nil, ?_, ?_, ?_⟩
  · simp only [names, inlineLocals, hassignments, List.map_map, List.filter_map]
    rfl
  · intro name hname
    have hsame : (fun assignment : Assignment ω =>
        decide ((!isLocal assignment.name) = true ∧ (assignment.name == name) = true)) =
          (·.name == name) := by
      funext assignment
      by_cases he : assignment.name = name <;> simp [he, hname]
    rw [rule?_eq_find?, rule?_eq_find?, inlineLocals]
    simp only [hassignments, List.find?_map, List.find?_filter, Function.comp_def, hsame,
      Option.map_map]
  · intro name rule hname hrule
    exact hsome _ (grammar.mem_of_rule? name rule hrule) hname

variable {grammar inlined : Grammar ω} {resolved : List (String × Rule ω)}

-- A local name is resolved to its own rule, inlined.
theorem Inlined.exists_rule (h : grammar.Inlined resolved) (name : String) (rule : Rule ω)
    (hname : resolvedIn resolved name = some rule) :
    ∃ own, grammar.rule? name = some own ∧ rule = own.inlinedBy (resolvedIn resolved) ∧
      ∀ other ∈ own.locals, (resolvedIn resolved other).isSome := by
  induction h with
  | nil => simp [resolvedIn] at hname
  | cons first own older _ hrule hnew hbelow _ ih =>
      have hkept (other : String) (hother : (older.lookup other).isSome) :
          resolvedIn ((first, own.inlinedBy (resolvedIn older)) :: older) other =
            resolvedIn older other := by
        have hne : other ≠ first := fun he => by simp [he, hnew] at hother
        rw [resolvedIn, List.lookup_cons, beq_eq_false_iff_ne.mpr hne]
      have hstays (other : Rule ω) (ho : ∀ name ∈ other.locals, (older.lookup name).isSome) :
          other.inlinedBy (resolvedIn older) =
            other.inlinedBy (resolvedIn ((first, own.inlinedBy (resolvedIn older)) :: older)) :=
        other.inlinedBy_congr _ _ fun name hname => (hkept name (ho name hname)).symm
      by_cases he : name = first
      · subst he
        rw [resolvedIn, List.lookup_cons_self, Option.some.injEq] at hname
        refine ⟨own, hrule, hname.symm.trans (hstays own hbelow), fun other hother => ?_⟩
        rw [hkept other (hbelow other hother)]
        exact hbelow other hother
      · rw [resolvedIn, List.lookup_cons, beq_eq_false_iff_ne.mpr he] at hname
        obtain ⟨own', hown, rfl, hlocals⟩ := ih hname
        refine ⟨own', hown, hstays own' hlocals, fun other hother => ?_⟩
        rw [hkept other (hlocals other hother)]
        exact hlocals other hother

end PhraseGrammar.Grammar
