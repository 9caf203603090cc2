import PhraseGrammar.Grammar.Inlining
import PhraseGrammar.Proofs.Rule.Answers
import PhraseGrammar.Proofs.Rule.References

namespace PhraseGrammar

variable {ω : Type}

-- The local names that a rule refers to, each as often as it does.
def Rule.locals (rule : Rule ω) : List String := rule.mentions.filter isLocal

-- The rule inlined by rules that have been collected for its local names.
def Rule.resolved (rule : Rule ω) (given : List (Option (Rule ω))) : Rule ω :=
  (rule.inlined nextAnswer given).1

-- The rule inlined by rules that depend on the name alone.
def Rule.inlinedBy (rule : Rule ω) (find : String → Option (Rule ω)) : Rule ω :=
  (rule.inlined (fixedAnswer find) ()).1

section Answers

variable {σ : Type} (resolve : String → σ → Option (Rule ω) × σ)

-- Inlining asks for the local names from left to right, and what it makes of
-- the rule hangs on the answers alone.
mutual

theorem Rule.inlined_answers : ∀ (rule : Rule ω) (state : σ) (more : List (Option (Rule ω))),
    rule.inlined nextAnswer
          ((answers resolve ((rule.references.map Prod.fst).filter isLocal) state).1 ++ more) =
        ((rule.inlined resolve state).1, more) ∧
      (rule.inlined resolve state).2 =
        (answers resolve ((rule.references.map Prod.fst).filter isLocal) state).2
  | ⟨choices, _, _, _, _, _⟩, state, more => by
      obtain ⟨hchoices, hstate⟩ := inlinedChoices_answers choices state more
      simp only [Rule.inlined, Rule.references, hchoices, hstate, and_self]

theorem inlinedChoices_answers : ∀ (choices : List (Choice ω)) (state : σ)
    (more : List (Option (Rule ω))),
    inlinedChoices nextAnswer choices
          ((answers resolve (((referencesOfChoices choices).map Prod.fst).filter isLocal) state).1 ++
            more) =
        ((inlinedChoices resolve choices state).1, more) ∧
      (inlinedChoices resolve choices state).2 =
        (answers resolve (((referencesOfChoices choices).map Prod.fst).filter isLocal) state).2
  | [], _, _ => ⟨rfl, rfl⟩
  | ⟨parts, _, _, _⟩ :: rest, state, more => by
      have hparts := inlinedParts_answers parts state
      rcases hp : inlinedParts resolve parts state with ⟨parts', next⟩
      simp only [hp] at hparts
      obtain ⟨hrest, hstate⟩ := inlinedChoices_answers rest next more
      simp only [referencesOfChoices, List.map_append, List.filter_append, answers_append,
        List.append_assoc, inlinedChoices, hp, (hparts _).1, ← (hparts []).2, hrest, hstate,
        and_self]

theorem inlinedParts_answers : ∀ (parts : List (Part ω)) (state : σ)
    (more : List (Option (Rule ω))),
    inlinedParts nextAnswer parts
          ((answers resolve (((referencesOfParts parts).map Prod.fst).filter isLocal) state).1 ++
            more) =
        ((inlinedParts resolve parts state).1, more) ∧
      (inlinedParts resolve parts state).2 =
        (answers resolve (((referencesOfParts parts).map Prod.fst).filter isLocal) state).2
  | [], _, _ => ⟨rfl, rfl⟩
  | .literal _ :: rest, state, more => by
      obtain ⟨hrest, hstate⟩ := inlinedParts_answers rest state more
      simp only [referencesOfParts, inlinedParts, hrest, ← hstate, and_self]
  | .inline rule :: rest, state, more => by
      have hrule := rule.inlined_answers state
      rcases hr : rule.inlined resolve state with ⟨rule', next⟩
      simp only [hr] at hrule
      obtain ⟨hrest, hstate⟩ := inlinedParts_answers rest next more
      simp only [referencesOfParts, List.map_append, List.filter_append, answers_append,
        List.append_assoc, inlinedParts, hr, (hrule _).1, ← (hrule []).2, hrest, ← hstate, and_self]
  | .reference name _ :: rest, state, more => by
      by_cases hlocal : isLocal name
      · simp only [referencesOfParts, List.map_cons, hlocal, List.filter_cons_of_pos, answers,
          List.cons_append, inlinedParts, nextAnswer, if_true]
        rcases resolve name state with ⟨_ | rule, next⟩ <;>
          obtain ⟨hrest, hstate⟩ := inlinedParts_answers rest next more <;>
          simp only [hrest, ← hstate, and_self]
      · obtain ⟨hrest, hstate⟩ := inlinedParts_answers rest state more
        simp only [referencesOfParts, List.map_cons, hlocal, List.filter_cons_of_neg,
          inlinedParts, if_false, hrest, ← hstate, and_self, Bool.false_eq_true, not_false_eq_true]

end

end Answers

-- Inlining is asking for all local names first and using the answers then.
theorem Rule.inlined_eq_resolved {σ : Type} (resolve : String → σ → Option (Rule ω) × σ)
    (rule : Rule ω) (state : σ) :
    rule.inlined resolve state =
      (rule.resolved (answers resolve rule.locals state).1,
        (answers resolve rule.locals state).2) := by
  obtain ⟨hrule, hstate⟩ := rule.inlined_answers resolve state []
  rw [List.append_nil] at hrule
  rw [Rule.resolved, Rule.locals, Rule.mentions, hrule, ← hstate]

theorem Rule.resolved_map (rule : Rule ω) (find : String → Option (Rule ω)) :
    rule.resolved (rule.locals.map find) = rule.inlinedBy find := by
  rw [Rule.inlinedBy, rule.inlined_eq_resolved, answers_fixedAnswer]

-- Only what is found for the local names in a rule matters to it.
theorem Rule.inlinedBy_congr (rule : Rule ω) (find other : String → Option (Rule ω))
    (h : ∀ name ∈ rule.locals, find name = other name) :
    rule.inlinedBy find = rule.inlinedBy other := by
  rw [← rule.resolved_map, ← rule.resolved_map, List.map_congr_left h]

mutual

-- References that nothing is found for stay as they are.
theorem Rule.inlined_none : ∀ rule : Rule ω,
    rule.inlined (fixedAnswer fun _ => none) () = (rule, ())
  | ⟨choices, _, _, _, _, _⟩ => by
      rw [Rule.inlined, inlinedChoices_none choices]

theorem inlinedChoices_none : ∀ choices : List (Choice ω),
    inlinedChoices (fixedAnswer fun _ => none) choices () = (choices, ())
  | [] => rfl
  | ⟨parts, _, _, _⟩ :: rest => by
      simp only [inlinedChoices, inlinedParts_none parts, inlinedChoices_none rest]

theorem inlinedParts_none : ∀ parts : List (Part ω),
    inlinedParts (fixedAnswer fun _ => none) parts () = (parts, ())
  | [] => rfl
  | .literal _ :: rest => by
      simp only [inlinedParts, inlinedParts_none rest]
  | .inline rule :: rest => by
      simp only [inlinedParts, rule.inlined_none, inlinedParts_none rest]
  | .reference _ _ :: rest => by
      simp only [inlinedParts, fixedAnswer, inlinedParts_none rest, ite_self]

end

-- A rule without local names is inlined as it is.
theorem Rule.inlined_of_locals {σ : Type} (resolve : String → σ → Option (Rule ω) × σ)
    (rule : Rule ω) (state : σ) (h : rule.locals = []) :
    rule.inlined resolve state = (rule, state) := by
  have hmap := rule.resolved_map fun _ => none
  rw [h, List.map_nil, Rule.inlinedBy, rule.inlined_none] at hmap
  rw [rule.inlined_eq_resolved, h, answers, hmap]

-- What a name in a rule leaves there once its local names are inlined.
def inlinedMentions (find : String → Option (Rule ω)) (name : String) : List String :=
  if isLocal name then ((find name).map Rule.mentions).getD [name] else [name]

section Mentions

variable (find : String → Option (Rule ω))

mutual

theorem Rule.names_inlinedBy : ∀ rule : Rule ω,
    (rule.inlinedBy find).references.map Prod.fst =
      (rule.references.map Prod.fst).flatMap (inlinedMentions find)
  | ⟨choices, _, _, _, _, _⟩ => by
      simp only [Rule.inlinedBy, Rule.inlined, Rule.references, names_inlinedChoices choices]

theorem names_inlinedChoices : ∀ choices : List (Choice ω),
    (referencesOfChoices (inlinedChoices (fixedAnswer find) choices ()).1).map Prod.fst =
      ((referencesOfChoices choices).map Prod.fst).flatMap (inlinedMentions find)
  | [] => rfl
  | ⟨parts, _, _, _⟩ :: rest => by
      simp only [inlinedChoices, referencesOfChoices, List.map_append, List.flatMap_append,
        names_inlinedParts parts, names_inlinedChoices rest]

theorem names_inlinedParts : ∀ parts : List (Part ω),
    (referencesOfParts (inlinedParts (fixedAnswer find) parts ()).1).map Prod.fst =
      ((referencesOfParts parts).map Prod.fst).flatMap (inlinedMentions find)
  | [] => rfl
  | .literal _ :: rest => by
      simp only [inlinedParts, referencesOfParts, names_inlinedParts rest]
  | .inline rule :: rest => by
      have hrule := rule.names_inlinedBy
      rw [Rule.inlinedBy] at hrule
      simp only [inlinedParts, referencesOfParts, List.map_append, List.flatMap_append, hrule,
        names_inlinedParts rest]
  | .reference name _ :: rest => by
      simp only [inlinedParts, fixedAnswer, referencesOfParts, List.map_cons, List.flatMap_cons,
        inlinedMentions]
      by_cases hlocal : isLocal name
      · rcases hfound : find name with _ | rule <;>
          simp [hlocal, referencesOfParts, names_inlinedParts rest, Rule.mentions]
      · simp [hlocal, referencesOfParts, names_inlinedParts rest]

end

end Mentions

theorem Rule.mentions_inlinedBy (rule : Rule ω) (find : String → Option (Rule ω)) :
    (rule.inlinedBy find).mentions = rule.mentions.flatMap (inlinedMentions find) :=
  rule.names_inlinedBy find

theorem Rule.mem_mentions_inlinedBy (rule : Rule ω) (find : String → Option (Rule ω))
    (name : String) (hname : name ∈ rule.mentions) (hlocal : ¬ isLocal name) :
    name ∈ (rule.inlinedBy find).mentions := by
  rw [rule.mentions_inlinedBy]
  exact List.mem_flatMap.mpr ⟨name, hname, by simp [inlinedMentions, hlocal]⟩

theorem Rule.mentions_subset_inlinedBy (rule : Rule ω) (find : String → Option (Rule ω))
    (name : String) (hname : name ∈ rule.mentions) (hlocal : isLocal name) (inner : Rule ω)
    (hinner : find name = some inner) : inner.mentions ⊆ (rule.inlinedBy find).mentions := by
  intro other hother
  rw [rule.mentions_inlinedBy]
  exact List.mem_flatMap.mpr ⟨name, hname, by simpa [inlinedMentions, hlocal, hinner] using hother⟩

-- A name that is mentioned after inlining was there before, or comes from what
-- a local name has been replaced by.
theorem Rule.mem_mentions_of_inlinedBy (rule : Rule ω) (find : String → Option (Rule ω))
    (other : String) (hother : other ∈ (rule.inlinedBy find).mentions) :
    other ∈ rule.mentions ∨ ∃ name inner, name ∈ rule.mentions ∧ isLocal name ∧
      find name = some inner ∧ other ∈ inner.mentions := by
  rw [rule.mentions_inlinedBy] at hother
  obtain ⟨name, hname, hother⟩ := List.mem_flatMap.mp hother
  unfold inlinedMentions at hother
  split at hother
  · rename_i hlocal
    cases hinner : find name with
    | none =>
        rw [hinner, Option.map_none, Option.getD_none, List.mem_singleton] at hother
        exact .inl (hother ▸ hname)
    | some inner =>
        rw [hinner, Option.map_some, Option.getD_some] at hother
        exact .inr ⟨name, inner, hname, hlocal, hinner, hother⟩
  · rw [List.mem_singleton] at hother
    exact .inl (hother ▸ hname)

end PhraseGrammar
