import PhraseGrammar.Proofs.Binding.Pass
import PhraseGrammar.Proofs.Rule.Weightless

namespace PhraseGrammar

variable {ω : Type} [Weight ω]

namespace Assignment

def weightless (assignment : Assignment ω) : Assignment ω :=
  { assignment with rule := assignment.rule.weightless }

theorem weightless_modify (assignments : List (Assignment ω)) (index : Nat) (rule : Rule ω) :
    (assignments.modify index fun assignment => { assignment with rule := rule }).map weightless =
      (assignments.map weightless).modify index
        fun assignment => { assignment with rule := rule.weightless } := by
  apply List.ext_getElem?
  intro place
  simp only [List.getElem?_map, List.getElem?_modify]
  by_cases h : index = place <;>
    simp [h, weightless, Function.comp_def]

theorem weightless_marked (assignments : List (Assignment ω)) (mark : Mark) :
    (assignments.map fun assignment =>
        { assignment with rule := assignment.rule.marked mark }).map weightless =
      (assignments.map weightless).map fun assignment =>
        { assignment with rule := assignment.rule.marked mark } := by
  simp [Function.comp_def, weightless]

theorem rule_weightless (assignments : List (Assignment ω)) (index : Nat) :
    ((assignments.map weightless)[index]?).map rule =
      (assignments[index]?.map rule).map Rule.weightless := by
  rw [List.getElem?_map, Option.map_map, Option.map_map]
  rfl

theorem rules_eq {assignments others : List (Assignment ω)}
    (h : assignments.map weightless = others.map weightless) (index : Nat) :
    (assignments[index]?.map rule).map Rule.weightless =
      (others[index]?.map rule).map Rule.weightless := by
  rw [← rule_weightless, h, rule_weightless]

theorem names_weightless (assignments : List (Assignment ω)) :
    (assignments.map weightless).map name = assignments.map name := by
  rw [List.map_map]
  rfl

end Assignment

-- The passes have come to the same, weights apart.
structure BindingPass.Similar (pass other : BindingPass ω) : Prop where
  assignments : pass.assignments.map Assignment.weightless =
    other.assignments.map Assignment.weightless
  reports : pass.reports = other.reports

section Similar

variable {pass other : BindingPass ω} (h : pass.Similar other)

include h

theorem BindingPass.Similar.put (index : Nat) (rule rule' : Rule ω)
    (hrule : rule.weightless = rule'.weightless) :
    (pass.put index rule).Similar (other.put index rule') where
  assignments := by
    rw [BindingPass.put, Assignment.weightless_modify, h.assignments, hrule,
      ← Assignment.weightless_modify, BindingPass.put]
  reports := h.reports

theorem BindingPass.Similar.report (diagnostic : Diagnostic) :
    (pass.report diagnostic).Similar (other.report diagnostic) where
  assignments := h.assignments
  reports := congrArg (· ++ [diagnostic]) h.reports

end Similar

namespace Grammar

-- The grammars differ in the weights of choices and rules at most: in the
-- overrides, and in what earlier bindings have made of them.
structure SameButWeights (grammar other : Grammar ω) : Prop where
  assignments : grammar.assignments.map Assignment.weightless =
    other.assignments.map Assignment.weightless
  start : grammar.start = other.start
  passes : grammar.passes = other.passes

section SameButWeights

variable {grammar other : Grammar ω} (h : grammar.SameButWeights other)

include h

theorem SameButWeights.length_eq : grammar.assignments.length = other.assignments.length := by
  simpa only [List.length_map] using congrArg List.length h.assignments

theorem SameButWeights.indexOf?_eq (name : String) :
    grammar.indexOf? name = other.indexOf? name := by
  rw [indexOf?, names, ← Assignment.names_weightless, h.assignments, Assignment.names_weightless,
    indexOf?, names]

theorem SameButWeights.nextPass : grammar.nextPass.SameButWeights other.nextPass := by
  unfold Grammar.nextPass
  rw [← h.passes]
  by_cases hlast : grammar.passes = lastPass
  · rw [if_pos hlast, if_pos hlast]
    refine ⟨?_, h.start, rfl⟩
    rw [Assignment.weightless_marked, h.assignments, Assignment.weightless_marked]
  · rw [if_neg hlast, if_neg hlast]
    exact ⟨h.assignments, h.start, rfl⟩

theorem SameButWeights.follow_alike (visit visit' : Nat → BindingPass ω → Bool × BindingPass ω)
    (hvisit : ∀ index pass pass', pass.Similar pass' →
      (visit index pass).1 = (visit' index pass').1 ∧
        (visit index pass).2.Similar (visit' index pass').2) :
    FollowAlike (grammar.follow visit) (other.follow visit') BindingPass.Similar := by
  intro name pass pass' hpass
  rw [Grammar.follow, Grammar.follow, h.indexOf?_eq name]
  cases other.indexOf? name with
  | none => exact ⟨rfl, hpass⟩
  | some index =>
      obtain ⟨hanswer, hafter⟩ := hvisit index pass pass' hpass
      rcases hleft : visit index pass with ⟨answer, after⟩
      rcases hright : visit' index pass' with ⟨answer', after'⟩
      simp only [hleft, hright] at hanswer hafter ⊢
      subst hanswer
      cases answer with
      | false => exact ⟨rfl, hafter.report _⟩
      | true =>
          have hrules : (after.ruleAt? index).map Rule.combinations =
              (after'.ruleAt? index).map Rule.combinations :=
            Rule.combinations_of_alike _ _ (Assignment.rules_eq hafter.assignments index)
          refine ⟨?_, hafter⟩
          simpa only [weightlessAnswer, Option.map_map, Function.comp_def, Rule.tally] using
            congrArg (Option.map fun count => (index, count)) hrules

-- One visit of each does the same, weights apart.
theorem SameButWeights.visit_alike (depth index : Nat) (pass pass' : BindingPass ω)
    (hpass : pass.Similar pass') :
    (grammar.visit depth index pass).1 = (other.visit depth index pass').1 ∧
      (grammar.visit depth index pass).2.Similar (other.visit depth index pass').2 := by
  rcases Rule.alike_cases (pass.ruleAt? index) (pass'.ruleAt? index)
    (Assignment.rules_eq hpass.assignments index) with
    ⟨hleft, hright⟩ | ⟨rule, rule', hleft, hright, hrule⟩
  · rw [visit, hleft, visit, hright]
    exact ⟨rfl, hpass⟩
  have hmark : rule'.mark = rule.mark := by
    rw [← rule'.mark_weightless, ← hrule, rule.mark_weightless]
  by_cases hopened : rule.mark = .inProgress
  · rw [grammar.visit_of_opened _ _ _ rule hleft hopened,
      other.visit_of_opened _ _ _ rule' hright (hmark.trans hopened)]
    exact ⟨rfl, hpass⟩
  by_cases hbound : rule.mark = .bound grammar.passes
  · rw [grammar.visit_of_bound _ _ _ rule hleft hbound,
      other.visit_of_bound _ _ _ rule' hright (hmark.trans (h.passes ▸ hbound))]
    exact ⟨rfl, hpass⟩
  cases depth with
  | zero =>
      rw [visit, hleft, visit, hright]
      simp only [hmark, hopened, hbound, ← h.passes, if_false, true_and]
      exact hpass
  | succ depth =>
      have hfollow := h.follow_alike (grammar.visit depth) (other.visit depth)
        (SameButWeights.visit_alike depth)
      have hput := hpass.put index rule.opened rule'.opened
        (by simp [hrule])
      obtain ⟨hmade, hafter⟩ := Rule.weightless_bound_eq hfollow rule rule' hrule _ _ hput
      rw [visit, hleft, visit, hright]
      simp only [hmark, hopened, hbound, ← h.passes, if_false, true_and]
      refine hafter.put _ _ _ ?_
      simp [hmade]

-- Binding reports the same for both, and the bound grammars are the same but
-- for weights.
theorem SameButWeights.bind (start : String) :
    (grammar.bind start).2 = (other.bind start).2 ∧
      (grammar.bind start).1.SameButWeights (other.bind start).1 := by
  cases hindex : grammar.indexOf? start with
  | none =>
      have hother := (h.indexOf?_eq start).symm.trans hindex
      simp only [Grammar.bind, hindex, hother, true_and]
      exact ⟨h.assignments, rfl, h.passes⟩
  | some index =>
      have hother := (h.indexOf?_eq start).symm.trans hindex
      have hnext := h.nextPass
      have hlast := (hnext.visit_alike grammar.nextPass.assignments.length index
        ⟨grammar.nextPass.assignments, []⟩ ⟨other.nextPass.assignments, []⟩
        ⟨hnext.assignments, rfl⟩).2
      simp only [Grammar.bind, hindex, hother]
      rw [hnext.length_eq] at hlast ⊢
      exact ⟨hlast.reports, hlast.assignments, by rw [hlast.reports], hnext.passes⟩

end SameButWeights

end Grammar

end PhraseGrammar
