import PhraseGrammar.Grammar.Generation
import PhraseGrammar.Proofs.Rule.References

namespace PhraseGrammar

variable {ω : Type} [Weight ω]

namespace Generation

omit [Weight ω]

-- From every source the generation ends, either with a value as described, or
-- because a transform fails with one of the given messages.
def Ends {α : Type} (fails : String → Prop) (post : α → Prop) (generation : Generation ω α) :
    Prop :=
  ∀ source, (∃ value, post value ∧ (generation source).1 = .ok value) ∨
    ∃ message, fails message ∧ (generation source).1 = .error (.failedTransform message)

variable {α β : Type} (fails : String → Prop)

theorem ends_pure (post : α → Prop) (value : α) (h : post value) :
    Ends fails post (pure value : Generation ω α) :=
  fun _ => .inl ⟨value, h, rfl⟩

theorem bind_apply (first : Generation ω α) (next : α → Generation ω β) (source : Source ω) :
    (first >>= next) source =
      match first source with
      | (.ok value, source) => next value source
      | (.error abort, source) => (.error abort, source) := by
  simp only [bind, ExceptT.bind, ExceptT.mk, StateT.bind]
  rcases first source with ⟨_ | _, _⟩ <;> rfl

theorem ends_bind (middle : α → Prop) (post : β → Prop) (first : Generation ω α)
    (next : α → Generation ω β) (hfirst : Ends fails middle first)
    (hnext : ∀ value, middle value → Ends fails post (next value)) :
    Ends fails post (first >>= next) := by
  intro source
  have hend := hfirst source
  rcases hrun : first source with ⟨result, after⟩
  rw [hrun] at hend
  rw [bind_apply, hrun]
  rcases hend with ⟨value, hvalue, rfl⟩ | ⟨message, hmessage, rfl⟩
  · exact hnext value hvalue after
  · exact .inr ⟨message, hmessage, rfl⟩

end Generation

theorem exists_apply_eq_error (transforms : List Transform) (text message : String)
    (h : applyAll transforms text = .error message) :
    ∃ transform ∈ transforms, ∃ input, transform.apply input = .error message := by
  induction transforms generalizing text with
  | nil => simp [applyAll, pure, Except.pure] at h
  | cons transform rest ih =>
      simp only [applyAll, List.foldlM_cons] at h
      cases hfirst : transform.apply text with
      | error failure =>
          rw [hfirst] at h
          cases h
          exact ⟨transform, List.mem_cons_self, text, hfirst⟩
      | ok output =>
          rw [hfirst] at h
          obtain ⟨later, hlater, happly⟩ := ih output h
          exact ⟨later, List.mem_cons_of_mem _ hlater, happly⟩

-- A rule whose table fits its choices, and whose transforms fail with the given
-- messages at most.
structure Rule.Usable (fails : String → Prop) (rule : Rule ω) : Prop where
  length_table : rule.table.length = rule.choices.length
  failure (transform : Transform) (htransform : transform ∈ rule.substitutions)
      (text message : String) (happly : transform.apply text = .error message) : fails message

section Parts

variable (fails : String → Prop)

theorem Generation.ends_select (table : List ω) (equalized : Bool) :
    Ends fails (fun selected => ∀ index, selected = some index → index < table.length)
      (select table equalized) := by
  intro source
  refine .inl ⟨(selectEntry table equalized source).1, ?_, rfl⟩
  exact fun index h => selectEntry_lt table equalized source index h

omit [Weight ω] in
theorem Generation.ends_transform (rule : Rule ω) (h : rule.Usable fails) (text : String) :
    Ends fails (fun _ => True) (transform rule.substitutions text : Generation ω String) := by
  unfold transform
  cases happly : applyAll rule.substitutions text with
  | ok output => exact ends_pure fails _ output trivial
  | error message =>
      obtain ⟨transform, htransform, input, hfails⟩ := exists_apply_eq_error _ _ _ happly
      exact fun _ => .inr ⟨message, h.failure transform htransform input message hfails, rfl⟩

omit [Weight ω] in
theorem Generation.ends_append (first second : Generation ω String)
    (hfirst : Ends fails (fun _ => True) first) (hsecond : Ends fails (fun _ => True) second) :
    Ends fails (fun _ => True) (do return (← first) ++ (← second)) :=
  ends_bind fails _ _ first _ hfirst fun _ _ =>
    ends_bind fails _ _ second _ hsecond fun _ _ => ends_pure fails _ _ trivial

variable (follow : Nat → Generation ω String) (context : Context) (equalizeAll : Bool)

mutual

-- Generation from a rule ends, if it does from the rules that the rule and
-- those in it are linked to.
theorem Rule.ends_generate : ∀ rule : Rule ω, (∀ inner ∈ rule.nested, inner.Usable fails) →
    (∀ name index, (name, some index) ∈ rule.references →
      Generation.Ends fails (fun _ => True) (follow index)) →
    Generation.Ends fails (fun _ => True) (rule.generate follow context equalizeAll)
  | ⟨choices, table, equalized, substitutions, fixedWeight, mark⟩, hnested, hfollow => by
      simp only [Rule.nested, List.mem_cons, forall_eq_or_imp] at hnested
      obtain ⟨husable, hinner⟩ := hnested
      rw [Rule.generate]
      refine Generation.ends_bind fails _ _ _ _ (Generation.ends_select fails table _) ?_
      rintro (_ | index) hindex
      · exact Generation.ends_transform fails _ husable ""
      · refine Generation.ends_bind fails (fun _ => True) _ _ _ ?_ fun text _ =>
          Generation.ends_transform fails _ husable text
        have hlt : index < choices.length := husable.length_table ▸ hindex index rfl
        exact ends_generateChoice choices index hlt hinner hfollow

theorem ends_generateChoice : ∀ (choices : List (Choice ω)) (index : Nat),
    index < choices.length → (∀ inner ∈ nestedInChoices choices, inner.Usable fails) →
    (∀ name index, (name, some index) ∈ referencesOfChoices choices →
      Generation.Ends fails (fun _ => True) (follow index)) →
    Generation.Ends fails (fun _ => True)
      (generateChoice follow context equalizeAll choices index)
  | [], _, hindex, _, _ => absurd hindex (Nat.not_lt_zero _)
  | ⟨parts, _, _, _⟩ :: _, 0, _, hnested, hfollow =>
      ends_generateParts parts (fun inner h => hnested inner (List.mem_append_left _ h))
        fun name index h => hfollow name index (List.mem_append_left _ h)
  | ⟨_, _, _, _⟩ :: rest, index + 1, hindex, hnested, hfollow =>
      ends_generateChoice rest index (Nat.lt_of_succ_lt_succ hindex)
        (fun inner h => hnested inner (List.mem_append_right _ h))
        fun name index h => hfollow name index (List.mem_append_right _ h)

theorem ends_generateParts : ∀ parts : List (Part ω),
    (∀ inner ∈ nestedInParts parts, inner.Usable fails) →
    (∀ name index, (name, some index) ∈ referencesOfParts parts →
      Generation.Ends fails (fun _ => True) (follow index)) →
    Generation.Ends fails (fun _ => True) (generateParts follow context equalizeAll parts)
  | [], _, _ => Generation.ends_pure fails _ _ trivial
  | .literal text :: rest, hnested, hfollow =>
      Generation.ends_append fails (pure text) _ (Generation.ends_pure fails _ _ trivial)
        (ends_generateParts rest hnested hfollow)
  | .inline rule :: rest, hnested, hfollow =>
      Generation.ends_append fails _ _
        (rule.ends_generate (fun inner h => hnested inner (List.mem_append_left _ h))
          fun name index h => hfollow name index (List.mem_append_left _ h))
        (ends_generateParts rest (fun inner h => hnested inner (List.mem_append_right _ h))
          fun name index h => hfollow name index (List.mem_append_right _ h))
  | .reference name (some index) :: rest, hnested, hfollow =>
      Generation.ends_append fails _ _ (hfollow name index List.mem_cons_self)
        (ends_generateParts rest hnested
          fun name index h => hfollow name index (List.mem_cons_of_mem _ h))
  | .reference name none :: rest, hnested, hfollow =>
      Generation.ends_append fails (pure ((context name).getD name)) _
        (Generation.ends_pure fails _ _ trivial)
        (ends_generateParts rest hnested
          fun name index h => hfollow name index (List.mem_cons_of_mem _ h))

end

end Parts

end PhraseGrammar
