import PhraseGrammar.Proofs.Generation.Meaning
import PhraseGrammar.Proofs.Inlining.Meaning
import PhraseGrammar.Proofs.Inlining.Recursion

namespace PhraseGrammar

variable {ω : Type} [Weight ω]

namespace Grammar

variable {grammar inlined bound fixed : Grammar ω} {resolved : List (String × Rule ω)}

section Names

variable (h : grammar.Inlining inlined resolved) (order kept : List String)
  (hbound : bound.names = grammar.names) (hfixed : fixed.names = inlined.names)
  (horder : Descends grammar.Refers order) (hkept : Descends inlined.Refers kept)
  (hmeans : ∀ name ∈ order, ∃ index rule, bound.Means grammar name index rule)
  (hkeeps : ∀ name ∈ kept, ∃ index rule, fixed.Means inlined name index rule)
  (context : Context) (equalizeAll : Bool)

include h hbound hfixed

-- A name that is not assigned is left to the context in both grammars.
theorem Inlining.corresponds_of_not_mem (rule : Rule ω)
    (hlocals : ∀ other ∈ rule.locals, (resolvedIn resolved other).isSome) (name : String)
    (hname : name ∈ rule.mentions) (hassigned : name ∉ grammar.names)
    (follow followed : Nat → Generation ω String) :
    Corresponds (resolvedIn resolved) bound.found fixed.found follow followed context equalizeAll
      name := by
  have hlocal : ¬ isLocal name := by
    intro hlocal
    obtain ⟨inner, hinner⟩ := Option.isSome_iff_exists.mp
      (hlocals name (List.mem_filter.mpr ⟨hname, hlocal⟩))
    obtain ⟨own, hown, _⟩ := h.layers.exists_rule name inner hinner
    exact hassigned (grammar.mem_names_of_rule? name own hown)
  have hgone : name ∉ inlined.names := fun hm => hassigned ((h.mem_names_iff name).mp hm).1
  rw [Corresponds, if_neg hlocal]
  exact .inl ⟨bound.found_eq_none name (hbound ▸ hassigned),
    fixed.found_eq_none name (hfixed ▸ hgone)⟩

include horder hkept hmeans hkeeps

-- All names that a start leads to mean the same after inlining. The induction
-- follows the references of the grammar, those to local names included.
theorem Inlining.corresponds (name : String) (hname : name ∈ order)
    (hleads : Leads inlined resolved (· ∈ kept) name) :
    Corresponds (resolvedIn resolved) bound.found fixed.found
      (bound.generateAt context equalizeAll bound.assignments.length)
      (fixed.generateAt context equalizeAll fixed.assignments.length) context equalizeAll name := by
  have hacc := horder.acc order name hname
  induction hacc with
  | intro name _ ih =>
      obtain ⟨index, rule, hmeaning⟩ := hmeans name hname
      -- The rule means the same if what it mentions after inlining is kept.
      have hsame (hlocals : ∀ other ∈ rule.locals, (resolvedIn resolved other).isSome)
          (hgood : ∀ other ∈ (rule.inlinedBy (resolvedIn resolved)).mentions,
            other ∈ inlined.names → other ∈ kept) := by
        refine rule.meaning_inlinedBy (resolvedIn resolved) bound.found fixed.found
          (bound.generateAt context equalizeAll bound.assignments.length)
          (fixed.generateAt context equalizeAll fixed.assignments.length) context equalizeAll
          fun other hother => ?_
        by_cases hassigned : other ∈ grammar.names
        · have hrefers : grammar.Refers name other :=
            ⟨rule, hmeaning.assigned, hother, hassigned⟩
          exact ih other hrefers (horder.step_mem order _ _ hname hrefers)
            (h.leads _ rule hlocals hgood other hother hassigned)
        · exact h.corresponds_of_not_mem hbound hfixed context equalizeAll rule hlocals other hother
            hassigned _ _
      unfold Leads at hleads
      split at hleads
      · rename_i hlocal
        obtain ⟨inner, hinner, hgood⟩ := hleads
        obtain ⟨own, hown, rfl, hlocals⟩ := h.layers.exists_rule name inner hinner
        obtain rfl : rule = own := Option.some.inj (hmeaning.assigned.symm.trans hown)
        obtain ⟨htally, hgenerate⟩ := hsame hlocals hgood
        rw [Corresponds, if_pos hlocal]
        refine ⟨_, index, hinner, htally ▸ hmeaning.found, ?_⟩
        rw [hmeaning.generate, hgenerate]
      · rename_i hlocal
        obtain ⟨place, own, hown⟩ := hkeeps name hleads
        have hassigned := hown.assigned
        rw [h.rules name hlocal, hmeaning.assigned, Option.map_some, Option.some.injEq] at hassigned
        subst hassigned
        have hgood : ∀ other ∈ (rule.inlinedBy (resolvedIn resolved)).mentions,
            other ∈ inlined.names → other ∈ kept := fun other hother hassigned =>
          hkept.step_mem kept name other hleads ⟨_, hown.assigned, hother, hassigned⟩
        obtain ⟨htally, hgenerate⟩ :=
          hsame (h.locals name rule hlocal hmeaning.assigned) hgood
        rw [Corresponds, if_neg hlocal]
        refine .inr ⟨index, place, _, hmeaning.found, htally ▸ hown.found, ?_⟩
        rw [hmeaning.generate, hown.generate, hgenerate]

theorem Inlining.meaning_eq (name : String) (hlocal : ¬ isLocal name) (hname : name ∈ order)
    (hname' : name ∈ kept) (index place : Nat) (rule rule' : Rule ω)
    (hrule : bound.Means grammar name index rule) (hrule' : fixed.Means inlined name place rule') :
    (rule'.boundBy fixed.found).tally = (rule.boundBy bound.found).tally ∧
      fixed.generateAt context equalizeAll fixed.assignments.length place =
        bound.generateAt context equalizeAll bound.assignments.length index := by
  have hleads : Leads inlined resolved (· ∈ kept) name := by
    rw [Leads, if_neg hlocal]
    exact hname'
  have hsame := h.corresponds order kept hbound hfixed horder hkept hmeans hkeeps context
    equalizeAll name hname hleads
  rw [Corresponds, if_neg hlocal] at hsame
  rcases hsame with ⟨hnone, _⟩ | ⟨_, _, tally, hfind, hfound, hfollow⟩
  · simp [hrule.found] at hnone
  · obtain ⟨rfl, rfl⟩ := Prod.mk.inj (Option.some.inj (hrule.found.symm.trans hfind))
    obtain ⟨rfl, htally⟩ := Prod.mk.inj (Option.some.inj (hrule'.found.symm.trans hfound))
    exact ⟨htally, hfollow.symm⟩

end Names

-- Inlining local names preserves what can be bound and what it means. Texts
-- are generated from the same numbers, drawn in the same order.
theorem inlineLocals_preserves (grammar : Grammar ω) (h : grammar.Reachable)
    (hreports : grammar.inlineLocals.2 = []) (start : String) (hstart : ¬ isLocal start) :
    ((grammar.inlineLocals.1.bind start).1.start.isSome ↔
      (grammar.bind start).1.start.isSome) ∧
    ((grammar.bind start).1.start.isSome →
      (grammar.inlineLocals.1.bind start).1.weight = (grammar.bind start).1.weight ∧
      (grammar.inlineLocals.1.bind start).1.combinations = (grammar.bind start).1.combinations ∧
      ∀ context equalizeAll source,
        (grammar.inlineLocals.1.bind start).1.generate context equalizeAll source =
          (grammar.bind start).1.generate context equalizeAll source) := by
  obtain ⟨resolved, hinlining⟩ := grammar.exists_inlining hreports
  have hsettled := h.settled
  have hsettled' := h.inlineLocals.settled
  have hsuccess : (grammar.inlineLocals.1.bind start).1.start.isSome ↔
      (grammar.bind start).1.start.isSome := by
    rw [bind_isSome_iff _ hsettled', bind_isSome_iff _ hsettled, hinlining.mem_names_iff,
      hinlining.grounded_iff start hstart]
    simp [hstart]
  refine ⟨hsuccess, fun hsome => ?_⟩
  obtain ⟨index, hindex⟩ := Option.isSome_iff_exists.mp hsome
  obtain ⟨place, hplace⟩ := Option.isSome_iff_exists.mp (hsuccess.mpr hsome)
  obtain ⟨⟨rule, hrule⟩, order, horder, hmem, hmeans⟩ :=
    grammar.exists_means hsettled start index hindex
  obtain ⟨⟨rule', hrule'⟩, kept, hkept, hmem', hkeeps⟩ :=
    grammar.inlineLocals.1.exists_means hsettled' start place hplace
  have hsame (context : Context) (equalizeAll : Bool) :=
    hinlining.meaning_eq order kept (grammar.names_bind start hsettled)
      (grammar.inlineLocals.1.names_bind start hsettled') horder hkept hmeans hkeeps context
      equalizeAll start hstart hmem hmem' index place rule rule' hrule hrule'
  have htally := (hsame .empty false).1
  obtain ⟨hweight, hcount⟩ := hrule.startRule start index rule hindex
  obtain ⟨hweight', hcount'⟩ := hrule'.startRule start place rule' hplace
  refine ⟨?_, ?_, fun context equalizeAll source => ?_⟩
  · rw [hweight', hweight, htally]
  · rw [hcount', hcount, htally]
  · simp only [generate, hindex, hplace, (hsame context equalizeAll).2]

-- Two local rules, one of them inside the other, between two that are not.
def nest : Grammar Rat :=
  let main : Rule Rat :=
    .ofChoices [Choice.empty.push (.reference "_a" none), Choice.empty.push (.reference "b" none)]
      false [] none
  let a : Rule Rat :=
    .ofChoices [(Choice.empty.push (.reference "_c" none)).push (.literal "x")] true [] (some 5)
  let b : Rule Rat := .ofChoices [Choice.empty.push (.literal "y")] false [] none
  let c : Rule Rat :=
    .ofChoices [Choice.empty.push (.reference "b" none), Choice.empty] false [] none
  ((((empty.insert "main" main).1.insert "_a" a).1.insert "b" b).1.insert "_c" c).1

theorem inlineLocals_preserves_nest :
    nest.Reachable ∧ nest.inlineLocals.2 = [] ∧ ¬ isLocal "main" ∧
      (nest.bind "main").1.start.isSome ∧ (nest.inlineLocals.1.bind "main").1.start.isSome ∧
      (nest.inlineLocals.1.bind "main").1.weight = (nest.bind "main").1.weight := by
  have hnest : nest.Reachable :=
    .insert _ _ _ (.insert _ _ _ (.insert _ _ _ (.insert _ _ _ .empty)))
  have hreports : nest.inlineLocals.2 = [] := by decide
  have hstart : ¬ isLocal "main" := by decide
  have hsome : (nest.bind "main").1.start.isSome := by decide
  obtain ⟨hsuccess, hmeaning⟩ := inlineLocals_preserves nest hnest hreports "main" hstart
  exact ⟨hnest, hreports, hstart, hsome, hsuccess.mpr hsome, (hmeaning hsome).1⟩

end Grammar

end PhraseGrammar
