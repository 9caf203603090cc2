import PhraseGrammar.Proofs.Rule.Content
import PhraseGrammar.Proofs.Rule.Nested

namespace PhraseGrammar

variable {ω : Type} [Weight ω]

mutual

-- The rule without any weight: no overrides, no products, and tables that say
-- no more than how many choices there are.
def Rule.weightless : Rule ω → Rule ω
  | ⟨choices, table, equalized, substitutions, _, mark⟩ =>
      ⟨weightlessChoices choices, table.map fun _ => 0, equalized, substitutions, none, mark⟩

def weightlessChoices : List (Choice ω) → List (Choice ω)
  | [] => []
  | ⟨parts, _, _, combinations⟩ :: rest =>
      ⟨weightlessParts parts, 1, none, combinations⟩ :: weightlessChoices rest

def weightlessParts : List (Part ω) → List (Part ω)
  | [] => []
  | .literal text :: rest => .literal text :: weightlessParts rest
  | .reference name link :: rest => .reference name link :: weightlessParts rest
  | .inline rule :: rest => .inline rule.weightless :: weightlessParts rest

end

section Parts

mutual

theorem Rule.nested_weightless : ∀ rule : Rule ω,
    rule.weightless.nested = rule.nested.map Rule.weightless
  | ⟨choices, _, _, _, _, _⟩ => by
      simp only [Rule.weightless, Rule.nested, List.map_cons, nested_weightlessChoices choices]

theorem nested_weightlessChoices : ∀ choices : List (Choice ω),
    nestedInChoices (weightlessChoices choices) = (nestedInChoices choices).map Rule.weightless
  | [] => rfl
  | ⟨parts, _, _, _⟩ :: rest => by
      simp only [weightlessChoices, nestedInChoices, List.map_append,
        nested_weightlessParts parts, nested_weightlessChoices rest]

theorem nested_weightlessParts : ∀ parts : List (Part ω),
    nestedInParts (weightlessParts parts) = (nestedInParts parts).map Rule.weightless
  | [] => rfl
  | .literal _ :: rest => by
      simp only [weightlessParts, nestedInParts, nested_weightlessParts rest]
  | .reference _ _ :: rest => by
      simp only [weightlessParts, nestedInParts, nested_weightlessParts rest]
  | .inline rule :: rest => by
      simp only [weightlessParts, nestedInParts, List.map_append, rule.nested_weightless,
        nested_weightlessParts rest]

end

end Parts

theorem combinations_weightlessChoices (choices : List (Choice ω)) :
    (weightlessChoices choices).map Choice.combinations = choices.map Choice.combinations := by
  induction choices with
  | nil => rfl
  | cons choice rest ih =>
      obtain ⟨parts, _, _, combinations⟩ := choice
      simp only [weightlessChoices, List.map_cons, ih]

@[simp] theorem length_weightlessChoices (choices : List (Choice ω)) :
    (weightlessChoices choices).length = choices.length := by
  simpa only [List.length_map] using congrArg List.length (combinations_weightlessChoices choices)

namespace Rule

@[simp] theorem weightless_marked (rule : Rule ω) (mark : Mark) :
    (rule.marked mark).weightless = rule.weightless.marked mark := by
  cases rule
  rfl

@[simp] theorem weightless_opened (rule : Rule ω) :
    rule.opened.weightless = rule.weightless.opened := by
  cases rule
  rfl

@[simp] theorem mark_weightless (rule : Rule ω) : rule.weightless.mark = rule.mark := by
  cases rule
  rfl

@[simp] theorem combinations_weightless (rule : Rule ω) :
    rule.weightless.combinations = rule.combinations := by
  cases rule
  simp only [Rule.weightless, Rule.combinations, combinations_weightlessChoices]

section Alike

variable (left right : Option (Rule ω))
  (h : left.map Rule.weightless = right.map Rule.weightless)

include h

-- Where rules are the same but for weights, both are there or neither is.
theorem alike_cases : (left = none ∧ right = none) ∨
    ∃ rule rule', left = some rule ∧ right = some rule' ∧ rule.weightless = rule'.weightless := by
  rcases left with _ | rule <;> rcases right with _ | rule'
  · exact .inl ⟨rfl, rfl⟩
  · cases h
  · cases h
  · exact .inr ⟨rule, rule', rfl, rfl, Option.some.inj h⟩

theorem combinations_of_alike : left.map Rule.combinations = right.map Rule.combinations := by
  have hsame := congrArg (Option.map Rule.combinations) h
  simpa [Function.comp_def] using hsame

end Alike

end Rule

-- An answer to a reference without the weight.
def weightlessAnswer (answer : Option (Nat × Tally ω)) : Option (Nat × Nat) :=
  answer.map fun found => (found.1, found.2.combinations)

section Bound

variable {σ τ : Type}

-- In similar states both answer the same, weights apart, and go on to similar
-- states.
def FollowAlike (follow : String → σ → Option (Nat × Tally ω) × σ)
    (other : String → τ → Option (Nat × Tally ω) × τ) (similar : σ → τ → Prop) : Prop :=
  ∀ name state state', similar state state' →
    weightlessAnswer (follow name state).1 = weightlessAnswer (other name state').1 ∧
      similar (follow name state).2 (other name state').2

variable {follow : String → σ → Option (Nat × Tally ω) × σ}
  {other : String → τ → Option (Nat × Tally ω) × τ} {similar : σ → τ → Prop}

mutual

-- What binding finds for a rule, weights apart, hangs on the rule and on the
-- answers to its references, weights apart.
theorem Rule.weightless_bound (hfollow : FollowAlike follow other similar) :
    ∀ (rule : Rule ω) (state : σ) (state' : τ), similar state state' →
    (rule.bound follow state).1.weightless = (rule.weightless.bound other state').1.weightless ∧
      similar (rule.bound follow state).2 (rule.weightless.bound other state').2
  | ⟨choices, _, _, _, _, _⟩, state, state', h => by
      obtain ⟨hchoices, hstate⟩ := weightless_boundChoices hfollow choices state state' h
      have hlength := congrArg List.length hchoices
      simp only [length_weightlessChoices] at hlength
      simp only [Rule.bound, Rule.weightless, hchoices, List.map_const', length_runningTotals,
        List.length_map, hlength, hstate, and_self]

theorem weightless_boundChoices (hfollow : FollowAlike follow other similar) :
    ∀ (choices : List (Choice ω)) (state : σ) (state' : τ), similar state state' →
    weightlessChoices (boundChoices follow choices state).1 =
        weightlessChoices (boundChoices other (weightlessChoices choices) state').1 ∧
      similar (boundChoices follow choices state).2
        (boundChoices other (weightlessChoices choices) state').2
  | [], _, _, h => ⟨rfl, h⟩
  | ⟨parts, _, _, _⟩ :: rest, state, state', h => by
      obtain ⟨hparts, hcount, hstate⟩ :=
        weightless_boundParts hfollow parts Tally.one Tally.one state state' rfl h
      obtain ⟨hrest, hlast⟩ := weightless_boundChoices hfollow rest _ _ hstate
      simp only [boundChoices, weightlessChoices, hparts, hcount, hrest, hlast, and_self]

theorem weightless_boundParts (hfollow : FollowAlike follow other similar) :
    ∀ (parts : List (Part ω)) (tally tally' : Tally ω) (state : σ) (state' : τ),
    tally.combinations = tally'.combinations → similar state state' →
    weightlessParts (boundParts follow parts tally state).1 =
        weightlessParts (boundParts other (weightlessParts parts) tally' state').1 ∧
      (boundParts follow parts tally state).2.1.combinations =
        (boundParts other (weightlessParts parts) tally' state').2.1.combinations ∧
      similar (boundParts follow parts tally state).2.2
        (boundParts other (weightlessParts parts) tally' state').2.2
  | [], _, _, _, _, hcount, h => ⟨rfl, hcount, h⟩
  | .literal _ :: rest, tally, tally', state, state', hcount, h => by
      obtain ⟨hrest, hmore⟩ := weightless_boundParts hfollow rest tally tally' state state' hcount h
      simp only [weightlessParts, boundParts, hrest, hmore, and_self]
  | .inline rule :: rest, tally, tally', state, state', hcount, h => by
      obtain ⟨hrule, hstate⟩ := rule.weightless_bound hfollow state state' h
      have hinner := congrArg Rule.combinations hrule
      simp only [Rule.combinations_weightless] at hinner
      have hproduct : (tally.times (rule.bound follow state).1.tally).combinations =
          (tally'.times (rule.weightless.bound other state').1.tally).combinations := by
        simp only [Tally.times, Rule.tally, hcount, hinner]
      obtain ⟨hrest, hmore⟩ := weightless_boundParts hfollow rest _ _ _ _ hproduct hstate
      simp only [weightlessParts, boundParts, hrule, hrest, hmore, and_self]
  | .reference name _ :: rest, tally, tally', state, state', hcount, h => by
      obtain ⟨hanswer, hstate⟩ := hfollow name state state' h
      rcases hone : follow name state with ⟨_ | ⟨index, factor⟩, next⟩ <;>
        rcases htwo : other name state' with ⟨_ | ⟨index', factor'⟩, next'⟩ <;>
        simp only [hone, htwo, weightlessAnswer, Option.map_none, Option.map_some, reduceCtorEq,
          Option.some.injEq, Prod.mk.injEq] at hanswer hstate
      · obtain ⟨hrest, hmore⟩ := weightless_boundParts hfollow rest _ _ next next' hcount hstate
        simp only [weightlessParts, boundParts, hone, htwo, hrest, hmore, and_self]
      · obtain ⟨rfl, hfactor⟩ := hanswer
        have hproduct : (tally.times factor).combinations =
            (tally'.times factor').combinations := by
          simp only [Tally.times, hcount, hfactor]
        obtain ⟨hrest, hmore⟩ := weightless_boundParts hfollow rest _ _ next next' hproduct hstate
        simp only [weightlessParts, boundParts, hone, htwo, hrest, hmore, and_self]

end

-- Rules that are the same but for weights stay the same but for weights.
theorem Rule.weightless_bound_eq (hfollow : FollowAlike follow other similar)
    (rule rule' : Rule ω) (hrule : rule.weightless = rule'.weightless) (state : σ) (state' : τ)
    (h : similar state state') :
    (rule.bound follow state).1.weightless = (rule'.bound other state').1.weightless ∧
      similar (rule.bound follow state).2 (rule'.bound other state').2 := by
  have hself : FollowAlike other other Eq := fun _ _ _ he => he ▸ ⟨rfl, rfl⟩
  obtain ⟨hleft, hstate⟩ := rule.weightless_bound hfollow state state' h
  obtain ⟨hright, hstate'⟩ := rule'.weightless_bound hself state' state' rfl
  rw [hleft, hright, hrule, hstate']
  exact ⟨rfl, hrule ▸ hstate⟩

end Bound

end PhraseGrammar
