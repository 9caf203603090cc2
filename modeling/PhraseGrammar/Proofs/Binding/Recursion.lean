import PhraseGrammar.Proofs.Binding.Stack
import PhraseGrammar.Proofs.Grammar.Reachable

namespace PhraseGrammar.Grammar

variable {ω : Type}

-- A name that can be reached from `start` lies on a cycle of references.
def Recurs (grammar : Grammar ω) (start name : String) : Prop :=
  Relation.ReflTransGen grammar.Refers start name ∧ Relation.TransGen grammar.Refers name name

variable [Weight ω] (grammar : Grammar ω)

-- A pass from an assigned name reports names that recur, and it reports one of
-- them if there is any.
theorem reports_bind (h : grammar.Settled) (start : String) (hstart : start ∈ grammar.names) :
    (∀ report ∈ (grammar.bind start).2,
      ∃ name, report = .recursiveExpansion name ∧ grammar.Recurs start name) ∧
    ((grammar.bind start).2 = [] → ∀ name, ¬ grammar.Recurs start name) := by
  obtain ⟨index, hindex⟩ := grammar.exists_indexOf? start hstart
  obtain ⟨given, last, hwalk, hbind⟩ := grammar.bind_walk h start index hindex
  have hnext : start ∈ grammar.nextPass.names := grammar.names_nextPass ▸ hstart
  rw [hbind]
  constructor
  · intro report hreport
    have hcycle := hwalk.reports_cycle start
      (fun name hname _ => List.mem_singleton.mp hname ▸ .refl) (by simp) report hreport
    rw [refers_nextPass] at hcycle
    exact hcycle.resolve_left (by simp)
  · rintro hnone name ⟨hreach, hcycle⟩
    have hdescends := (hwalk.layered hnone (by simp) .nil).descends
    rw [← refers_nextPass] at hreach hcycle
    have hmem := (hwalk.given_eq hnone).2 start List.mem_cons_self hnext
    exact hdescends.no_cycle _ name (hdescends.reach_mem _ start name hmem hreach) hcycle

-- The start of a grammar after a pass is the name that it has been bound to.
theorem start_bind (h : grammar.Settled) (start : String) :
    (grammar.bind start).1.start =
      if (grammar.bind start).2 = [] then grammar.indexOf? start else none := by
  cases hindex : grammar.indexOf? start with
  | none => simp only [bind, hindex, ite_self]
  | some index =>
      obtain ⟨given, last, _, hbind⟩ := grammar.bind_walk h start index hindex
      simp only [hbind, List.isEmpty_iff]

omit [Weight ω] in
-- References from the name come to an end.
def Grounded (name : String) : Prop := Acc (fun next last => grammar.Refers last next) name

omit [Weight ω] in
theorem Grounded.reach (name other : String) (h : grammar.Grounded name)
    (hreach : Relation.ReflTransGen grammar.Refers name other) : grammar.Grounded other := by
  induction hreach with
  | refl => exact h
  | tail _ hlast ih => exact ih.inv hlast

theorem bind_isSome_iff (h : grammar.Settled) (start : String) :
    (grammar.bind start).1.start.isSome ↔ start ∈ grammar.names ∧ grammar.Grounded start := by
  constructor
  · intro hsome
    obtain ⟨index, hindex⟩ := Option.isSome_iff_exists.mp hsome
    obtain ⟨hname, order, _, hdescends, hmem, _⟩ := grammar.exists_stack h start index hindex
    exact ⟨grammar.mem_names_of_indexOf? start index hname, hdescends.acc order start hmem⟩
  · rintro ⟨hname, hgrounded⟩
    obtain ⟨index, hindex⟩ := grammar.exists_indexOf? start hname
    have hnone : (grammar.bind start).2 = [] := by
      by_contra hne
      obtain ⟨report, hreport⟩ := List.exists_mem_of_ne_nil _ hne
      obtain ⟨name, _, hreach, hcycle⟩ := (grammar.reports_bind h start hname).1 report hreport
      exact not_transGen_of_acc name (hgrounded.reach grammar start name hreach) hcycle
    rw [grammar.start_bind h, if_pos hnone, hindex]
    rfl

-- Binding succeeds exactly if the start is assigned and nothing that it leads
-- to recurs. A start that is not assigned is reported as missing; all other
-- reports name something that recurs, and there is one if binding fails.
theorem bind_decides_recursion (h : grammar.Reachable) (start : String) :
    ((grammar.bind start).1.start.isSome ↔
      start ∈ grammar.names ∧ ∀ name, ¬ grammar.Recurs start name) ∧
    (∀ index, (grammar.bind start).1.start = some index → grammar.indexOf? start = some index) ∧
    (start ∉ grammar.names → (grammar.bind start).2 = [.missingStart start]) ∧
    (start ∈ grammar.names →
      (∀ report ∈ (grammar.bind start).2,
        ∃ name, report = .recursiveExpansion name ∧ grammar.Recurs start name) ∧
      ((grammar.bind start).2 ≠ [] ↔ (grammar.bind start).1.start = none)) := by
  have hsettled := h.settled
  have hstart := grammar.start_bind hsettled start
  by_cases hname : start ∈ grammar.names
  · obtain ⟨index, hindex⟩ := grammar.exists_indexOf? start hname
    obtain ⟨hsound, hcomplete⟩ := grammar.reports_bind hsettled start hname
    rw [hindex] at hstart
    by_cases hreports : (grammar.bind start).2 = []
    · rw [if_pos hreports] at hstart
      simp only [hstart, hreports, hindex, hname, hcomplete hreports]
      simp
    · obtain ⟨report, hreport⟩ := List.exists_mem_of_ne_nil _ hreports
      obtain ⟨name, _, hrecurs⟩ := hsound report hreport
      rw [if_neg hreports] at hstart
      refine ⟨?_, by simp [hstart], fun hn => absurd hname hn, fun _ => ⟨hsound, by simp [*]⟩⟩
      simp only [hstart, Option.isSome_none, Bool.false_eq_true, false_iff, not_and]
      exact fun _ hnone => hnone name hrecurs
  · have hindex := (grammar.indexOf?_eq_none_iff start).mpr hname
    simp only [bind, hindex, hname]
    simp

def sequence (names : List String) : Rule Rat :=
  .ofChoices [names.foldl (fun choice name => choice.push (.reference name none)) Choice.empty]
    false [] none

-- Two rules that refer to each other, and a third that is shared.
def ring : Grammar Rat :=
  ((((empty.insert "main" (sequence ["a", "c"])).1.insert "a" (sequence ["b", "x"])).1.insert "b"
    (sequence ["c", "a"])).1.insert "c" (sequence [])).1

theorem bind_reports_ring :
    ring.Reachable ∧ (ring.bind "main").2 = [.recursiveExpansion "a"] ∧ ring.Recurs "main" "a" := by
  have hring : ring.Reachable :=
    .insert _ _ _ (.insert _ _ _ (.insert _ _ _ (.insert _ _ _ .empty)))
  have hreports : (ring.bind "main").2 = [.recursiveExpansion "a"] := by decide
  obtain ⟨_, _, _, hassigned⟩ := bind_decides_recursion ring hring "main"
  obtain ⟨name, hname, hrecurs⟩ := (hassigned (by decide)).1 (.recursiveExpansion "a")
    (hreports ▸ List.mem_singleton_self _)
  obtain rfl : "a" = name := Diagnostic.recursiveExpansion.inj hname
  exact ⟨hring, hreports, hrecurs⟩

end PhraseGrammar.Grammar
