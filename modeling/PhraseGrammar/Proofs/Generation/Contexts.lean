import PhraseGrammar.Proofs.Derivation.Below
import PhraseGrammar.Proofs.Generation.Choices

namespace PhraseGrammar

variable {ω : Type}

mutual

-- The rule with the words of a context in the place of the references without
-- a link. A name that the context does not have stands for itself.
def Rule.filled (context : Context) : Rule ω → Rule ω
  | ⟨choices, table, equalized, substitutions, fixedWeight, mark⟩ =>
      ⟨filledChoices context choices, table, equalized, substitutions, fixedWeight, mark⟩

def filledChoices (context : Context) : List (Choice ω) → List (Choice ω)
  | [] => []
  | ⟨parts, product, fixedWeight, combinations⟩ :: rest =>
      ⟨filledParts context parts, product, fixedWeight, combinations⟩ :: filledChoices context rest

def filledParts (context : Context) : List (Part ω) → List (Part ω)
  | [] => []
  | .literal text :: rest => .literal text :: filledParts context rest
  | .inline rule :: rest => .inline (rule.filled context) :: filledParts context rest
  | .reference name (some index) :: rest =>
      .reference name (some index) :: filledParts context rest
  | .reference name none :: rest =>
      .literal ((context name).getD name) :: filledParts context rest

end

section Filled

variable [Weight ω] (follow : Nat → Generation ω String) (context other : Context)
  (equalizeAll : Bool)

mutual

-- What a context has for a name comes out like a literal, whatever is in it.
theorem Rule.generate_filled : ∀ rule : Rule ω,
    (rule.filled context).generate follow other equalizeAll =
      rule.generate follow context equalizeAll
  | ⟨choices, _, _, _, _, _⟩ => by
      simp only [Rule.filled, Rule.generate, generateChoice_filled choices]

theorem generateChoice_filled : ∀ (choices : List (Choice ω)) (selected : Nat),
    generateChoice follow other equalizeAll (filledChoices context choices) selected =
      generateChoice follow context equalizeAll choices selected
  | [], _ => rfl
  | ⟨parts, _, _, _⟩ :: _, 0 => generateParts_filled parts
  | ⟨_, _, _, _⟩ :: rest, selected + 1 => generateChoice_filled rest selected

theorem generateParts_filled : ∀ parts : List (Part ω),
    generateParts follow other equalizeAll (filledParts context parts) =
      generateParts follow context equalizeAll parts
  | [] => rfl
  | .literal _ :: rest => by
      simp only [filledParts, generateParts, generateParts_filled rest]
  | .inline rule :: rest => by
      simp only [filledParts, generateParts, rule.generate_filled, generateParts_filled rest]
  | .reference _ (some index) :: rest => by
      simp only [filledParts, generateParts, generateParts_filled rest]
  | .reference _ none :: rest => by
      simp only [filledParts, generateParts, generateParts_filled rest]

end

end Filled

namespace Grammar

-- The grammar in which every rule has the words of the context.
def filled (grammar : Grammar ω) (context : Context) : Grammar ω :=
  { grammar with
    assignments := grammar.assignments.map fun assignment =>
      { assignment with rule := assignment.rule.filled context } }

@[simp] theorem ruleAt?_filled (grammar : Grammar ω) (context : Context) (index : Nat) :
    (grammar.filled context).ruleAt? index =
      (grammar.ruleAt? index).map (Rule.filled context) := by
  simp only [ruleAt?, filled, List.getElem?_map, Option.map_map]
  rfl

variable [Weight ω]

@[simp] theorem generateAt_filled (grammar : Grammar ω) (context other : Context)
    (equalizeAll : Bool) (depth index : Nat) :
    (grammar.filled context).generateAt other equalizeAll depth index =
      grammar.generateAt context equalizeAll depth index := by
  induction depth generalizing index with
  | zero => rfl
  | succ depth ih =>
      have hfollow : (grammar.filled context).generateAt other equalizeAll depth =
          grammar.generateAt context equalizeAll depth := funext ih
      rw [generateAt, generateAt, ruleAt?_filled, hfollow]
      cases grammar.ruleAt? index with
      | none => rfl
      | some rule => exact rule.generate_filled _ context other equalizeAll

@[simp] theorem generate_filled (grammar : Grammar ω) (context other : Context)
    (equalizeAll : Bool) :
    (grammar.filled context).generate other equalizeAll =
      grammar.generate context equalizeAll := by
  have hstart : (grammar.filled context).start = grammar.start := rfl
  have hlength : (grammar.filled context).assignments.length = grammar.assignments.length :=
    List.length_map _
  simp only [generate, hstart, hlength, generateAt_filled]

variable {grammar : Grammar ω}

-- In a stack every assigned name is linked, so the context is never asked for
-- one.
theorem Stacked.generateAt_congr {order : List String} (h : grammar.Stacked order)
    (context other : Context) (hagree : ∀ name, name ∉ grammar.names → context name = other name)
    (equalizeAll : Bool) (name : String) (hname : name ∈ order) (index : Nat)
    (hindex : grammar.indexOf? name = some index) :
    grammar.generateAt context equalizeAll grammar.assignments.length index =
      grammar.generateAt other equalizeAll grammar.assignments.length index := by
  induction h generalizing name index with
  | nil => simp at hname
  | cons first rule older hrule hbound hnew hbelow holder ih =>
      have hstack := Stacked.cons first rule older hrule hbound hnew hbelow holder
      rcases List.mem_cons.mp hname with rfl | hname
      · have hself : name ∈ name :: older := List.mem_cons_self
        rw [hstack.generateAt_eq _ context equalizeAll name hself index hindex rule hrule,
          hstack.generateAt_eq _ other equalizeAll name hself index hindex rule hrule]
        refine rule.generate_congr equalizeAll ⟨fun next place hreference => ?_, ?_⟩
        · obtain ⟨hmem, hplace⟩ := hstack.mem_of_link name older rule hrule next place hreference
          exact ih next hmem place hplace
        · intro outside hreference
          have hnone : grammar.indexOf? outside = none :=
            (hstack.link_eq _ name hself rule hrule _ hreference).symm
          exact hagree outside ((grammar.indexOf?_eq_none_iff outside).mp hnone)
      · exact ih name hname index hindex

section Reachable

variable {start : Nat} (h : grammar.Reachable) (hstart : grammar.start = some start)

include h hstart

theorem Reachable.generate_congr (context other : Context)
    (hagree : ∀ name, name ∉ grammar.names → context name = other name) (equalizeAll : Bool) :
    grammar.generate context equalizeAll = grammar.generate other equalizeAll := by
  obtain ⟨order, hstack, horder⟩ := h.exists_order hstart
  obtain ⟨name, hname, hindex⟩ := horder start .refl
  simp only [generate, hstart]
  exact hstack.generateAt_congr context other hagree equalizeAll name hname start hindex

-- Only a transform can keep a bound grammar from a phrase.
theorem Reachable.exists_phrase (hreturn : ∀ message, ¬ grammar.FailsFrom start message)
    (context : Context) (equalizeAll : Bool) (source : Source ω) :
    ∃ phrase, (grammar.generate context equalizeAll source).1 = .ok phrase := by
  obtain ⟨order, hstack, horder⟩ := h.exists_order hstart
  obtain ⟨name, hname, hindex⟩ := horder start .refl
  have hends :=
    hstack.ends_generateAt start context equalizeAll name hname start hindex .refl source
  simp only [generate, hstart]
  rcases hends with ⟨phrase, _, hphrase⟩ | ⟨message, hfails, _⟩
  · exact ⟨phrase, hphrase⟩
  · exact absurd hfails (hreturn message)

-- A record goes with each phrase, and it is the same in every context.
theorem Reachable.exists_choices (hreturn : ∀ message, ¬ grammar.FailsFrom start message)
    (equalizeAll : Bool) (source : Source ω) :
    ∃ choices after, ∀ context, ∃ phrase,
      grammar.recorded context equalizeAll source = (.ok (phrase, choices), after) := by
  have hmade : ∀ context, ∃ phrase choices after,
      grammar.recorded context equalizeAll source = (.ok (phrase, choices), after) := by
    intro context
    obtain ⟨phrase, hphrase⟩ := h.exists_phrase hstart hreturn context equalizeAll source
    rw [← fst_recorded, map_eq_pure_bind, Generation.bind_apply] at hphrase
    rcases hrun : grammar.recorded context equalizeAll source with ⟨abort | made, after⟩
    · rw [hrun] at hphrase
      cases hphrase
    · exact ⟨made.1, made.2, after, rfl⟩
  obtain ⟨text, choices, after, hempty⟩ := hmade .empty
  refine ⟨choices, after, fun context => ?_⟩
  obtain ⟨phrase, others, last, hrun⟩ := hmade context
  obtain ⟨hsame, rfl⟩ :=
    grammar.lockstep_recorded context .empty equalizeAll source _ last _ after hrun hempty
  obtain rfl : others = choices := hsame
  exact ⟨phrase, hrun⟩

end Reachable

-- A context has no say in what is chosen. From the same source any two contexts
-- lead to the same choices and the same draws, where no transform fails. For a
-- name that is assigned no context is asked at all, and what a context has for
-- another name comes out as a literal would.
theorem context_keeps_choices (grammar : Grammar ω) (h : grammar.Reachable) (start : Nat)
    (hstart : grammar.start = some start) (equalizeAll : Bool) :
    (∀ context, Prod.fst <$> grammar.recorded context equalizeAll =
      grammar.generate context equalizeAll) ∧
    (∀ context other, Generation.Lockstep SameChoices (grammar.recorded context equalizeAll)
      (grammar.recorded other equalizeAll)) ∧
    ((∀ message, ¬ grammar.FailsFrom start message) → ∀ source, ∃ choices after, ∀ context,
      ∃ phrase, grammar.recorded context equalizeAll source = (.ok (phrase, choices), after)) ∧
    (∀ context other, (∀ name, name ∉ grammar.names → context name = other name) →
      grammar.generate context equalizeAll = grammar.generate other equalizeAll) ∧
    ∀ context other, (grammar.filled context).generate other equalizeAll =
      grammar.generate context equalizeAll := by
  refine ⟨?_, ?_, fun hreturn source => ?_, fun context other hagree => ?_, ?_⟩
  · exact fun context => grammar.fst_recorded context equalizeAll
  · exact fun context other => grammar.lockstep_recorded context other equalizeAll
  · exact h.exists_choices hstart hreturn equalizeAll source
  · exact h.generate_congr hstart context other hagree equalizeAll
  · exact fun context other => grammar.generate_filled context other equalizeAll

theorem fork_keeps_choices :
    fork.Reachable ∧ fork.start = some 0 ∧ (∀ message, ¬ fork.FailsFrom 0 message) ∧
      (fork.generate (.ofList [("y", "\x7ba\x7d"), ("b", "other")]) false (.ofList [0])).1 =
        .ok "x\x7ba\x7d" ∧
      fork.generate (.ofList [("y", "\x7ba\x7d"), ("b", "other")]) false =
        fork.generate (.ofList [("y", "\x7ba\x7d")]) false ∧
      ∃ choices after, ∀ context, ∃ phrase,
        fork.recorded context false (.ofList [0]) = (.ok (phrase, choices), after) := by
  have hfork : fork.Reachable := .bind _ _ (.insert _ _ _ (.insert _ _ _ (.insert _ _ _ .empty)))
  have hstart : fork.start = some 0 := by decide
  have hplain : ∀ rule ∈ fork.assignments.map Assignment.rule, ∀ inner ∈ rule.nested,
      inner.substitutions.isEmpty := by decide
  have hreturn : ∀ message, ¬ fork.FailsFrom 0 message := by
    rintro message ⟨index, rule, _, hat, inner, hinner, transform, htransform, _⟩
    obtain ⟨assignment, hassignment, rfl⟩ := Option.map_eq_some_iff.mp hat
    have hmem := List.mem_map_of_mem (f := Assignment.rule) (List.mem_of_getElem? hassignment)
    have hempty := List.isEmpty_iff.mp (hplain _ hmem inner hinner)
    simp [hempty] at htransform
  obtain ⟨_, _, hchoices, hagree, _⟩ := context_keeps_choices fork hfork 0 hstart false
  refine ⟨hfork, hstart, hreturn, by decide +kernel, hagree _ _ fun name hname => ?_,
    hchoices hreturn _⟩
  have hne : name ≠ "b" := fun he => hname (he ▸ by decide)
  have hbeq : (name == "b") = false := beq_false_of_ne hne
  simp [Context.ofList, List.lookup_cons, hbeq]

end Grammar

end PhraseGrammar
