import PhraseGrammar.Grammar.Binding
import PhraseGrammar.Grammar.Inlining
import PhraseGrammar.Proofs.Rule.References

namespace PhraseGrammar

variable {ω : Type}

-- Every link of these references leads where the name may lead.
def LinksLead (leads : String → Nat → Prop) (references : List (String × Option Nat)) : Prop :=
  ∀ name index, (name, some index) ∈ references → leads name index

section Lists

variable {leads : String → Nat → Prop}

theorem linksLead_nil : LinksLead leads [] := nofun

theorem linksLead_append {left right : List (String × Option Nat)} (hleft : LinksLead leads left)
    (hright : LinksLead leads right) : LinksLead leads (left ++ right) := by
  intro name index hreference
  rcases List.mem_append.mp hreference with hreference | hreference
  · exact hleft name index hreference
  · exact hright name index hreference

theorem linksLead_cons {name : String} {link : Option Nat}
    {references : List (String × Option Nat)} (hlink : ∀ index ∈ link, leads name index)
    (hrest : LinksLead leads references) : LinksLead leads ((name, link) :: references) := by
  intro other index hreference
  rcases List.mem_cons.mp hreference with hsame | hreference
  · obtain ⟨rfl, rfl⟩ := Prod.mk.inj hsame
    exact hlink index rfl
  · exact hrest other index hreference

theorem LinksLead.left {left right : List (String × Option Nat)}
    (h : LinksLead leads (left ++ right)) : LinksLead leads left :=
  fun name index hreference => h name index (List.mem_append_left _ hreference)

theorem LinksLead.right {left right : List (String × Option Nat)}
    (h : LinksLead leads (left ++ right)) : LinksLead leads right :=
  fun name index hreference => h name index (List.mem_append_right _ hreference)

theorem LinksLead.tail {reference : String × Option Nat} {references : List (String × Option Nat)}
    (h : LinksLead leads (reference :: references)) : LinksLead leads references :=
  fun name index hreference => h name index (List.mem_cons_of_mem _ hreference)

end Lists

section Unlinked

variable {leads : String → Nat → Prop}

mutual

theorem Rule.linksLead_unlinked : ∀ rule : Rule ω, LinksLead leads rule.unlinked.references
  | ⟨choices, _, _, _, _, _⟩ => linksLead_unlinkedChoices choices

theorem linksLead_unlinkedChoices : ∀ choices : List (Choice ω),
    LinksLead leads (referencesOfChoices (unlinkedChoices choices))
  | [] => linksLead_nil
  | ⟨parts, _, _, _⟩ :: rest =>
      linksLead_append (linksLead_unlinkedParts parts) (linksLead_unlinkedChoices rest)

theorem linksLead_unlinkedParts : ∀ parts : List (Part ω),
    LinksLead leads (referencesOfParts (unlinkedParts parts))
  | [] => linksLead_nil
  | .literal _ :: rest => linksLead_unlinkedParts rest
  | .reference _ _ :: rest => linksLead_cons nofun (linksLead_unlinkedParts rest)
  | .inline rule :: rest =>
      linksLead_append rule.linksLead_unlinked (linksLead_unlinkedParts rest)

end

end Unlinked

section Bound

variable {σ : Type} (leads : String → Nat → Prop) (holds : σ → Prop)
  (follow : String → σ → Option (Nat × Tally ω) × σ)

-- Names are followed to where they may lead, as long as something holds, and
-- following keeps it.
def FollowsWithin : Prop :=
  ∀ name state, holds state → holds (follow name state).2 ∧
    ∀ index factor, (follow name state).1 = some (index, factor) → leads name index

variable {leads holds follow} [Weight ω]

mutual

-- A bound rule is linked to what its references have been followed to. What
-- following keeps, binding keeps.
theorem Rule.linksLead_bound (hfollow : FollowsWithin leads holds follow) :
    ∀ (rule : Rule ω) (state : σ), holds state →
      holds (rule.bound follow state).2 ∧ LinksLead leads (rule.bound follow state).1.references
  | ⟨choices, _, _, _, _, _⟩, state, h => linksLead_boundChoices hfollow choices state h

theorem linksLead_boundChoices (hfollow : FollowsWithin leads holds follow) :
    ∀ (choices : List (Choice ω)) (state : σ), holds state →
      holds (boundChoices follow choices state).2 ∧
        LinksLead leads (referencesOfChoices (boundChoices follow choices state).1)
  | [], _, h => ⟨h, linksLead_nil⟩
  | ⟨parts, _, _, _⟩ :: rest, state, h => by
      obtain ⟨hnext, hparts⟩ := linksLead_boundParts hfollow parts Tally.one state h
      obtain ⟨hlast, hrest⟩ := linksLead_boundChoices hfollow rest _ hnext
      exact ⟨hlast, linksLead_append hparts hrest⟩

theorem linksLead_boundParts (hfollow : FollowsWithin leads holds follow) :
    ∀ (parts : List (Part ω)) (tally : Tally ω) (state : σ), holds state →
      holds (boundParts follow parts tally state).2.2 ∧
        LinksLead leads (referencesOfParts (boundParts follow parts tally state).1)
  | [], _, _, h => ⟨h, linksLead_nil⟩
  | .literal _ :: rest, tally, state, h => linksLead_boundParts hfollow rest tally state h
  | .inline rule :: rest, tally, state, h => by
      obtain ⟨hnext, hrule⟩ := rule.linksLead_bound hfollow state h
      obtain ⟨hlast, hrest⟩ := linksLead_boundParts hfollow rest
        (tally.times (rule.bound follow state).1.tally) _ hnext
      exact ⟨hlast, linksLead_append hrule hrest⟩
  | .reference name _ :: rest, tally, state, h => by
      obtain ⟨hnext, hleads⟩ := hfollow name state h
      simp only [boundParts]
      rcases hanswer : follow name state with ⟨_ | ⟨index, factor⟩, next⟩
      · rw [hanswer] at hnext
        obtain ⟨hlast, hrest⟩ := linksLead_boundParts hfollow rest tally next hnext
        exact ⟨hlast, linksLead_cons nofun hrest⟩
      · rw [hanswer] at hnext hleads
        obtain ⟨hlast, hrest⟩ := linksLead_boundParts hfollow rest (tally.times factor) next hnext
        refine ⟨hlast, linksLead_cons ?_ hrest⟩
        rintro _ ⟨⟩
        exact hleads index factor rfl

end

end Bound

section Inlined

variable {σ : Type} (leads : String → Nat → Prop) (holds : σ → Prop)
  (resolve : String → σ → Option (Rule ω) × σ)

-- Names are resolved to rules whose links lead where they may, and resolving
-- keeps what holds.
def ResolvesWithin : Prop :=
  ∀ name state, holds state → holds (resolve name state).2 ∧
    ∀ rule, (resolve name state).1 = some rule → LinksLead leads rule.references

variable {leads holds resolve}

mutual

-- The links of an inlined rule are its own and those of the rules that have
-- been put into it.
theorem Rule.linksLead_inlined (hresolve : ResolvesWithin leads holds resolve) :
    ∀ (rule : Rule ω) (state : σ), holds state → LinksLead leads rule.references →
      holds (rule.inlined resolve state).2 ∧
        LinksLead leads (rule.inlined resolve state).1.references
  | ⟨choices, _, _, _, _, _⟩, state, h, hlinks =>
      linksLead_inlinedChoices hresolve choices state h hlinks

theorem linksLead_inlinedChoices (hresolve : ResolvesWithin leads holds resolve) :
    ∀ (choices : List (Choice ω)) (state : σ), holds state →
      LinksLead leads (referencesOfChoices choices) →
      holds (inlinedChoices resolve choices state).2 ∧
        LinksLead leads (referencesOfChoices (inlinedChoices resolve choices state).1)
  | [], _, h, _ => ⟨h, linksLead_nil⟩
  | ⟨parts, _, _, _⟩ :: rest, state, h, hlinks => by
      obtain ⟨hnext, hparts⟩ := linksLead_inlinedParts hresolve parts state h hlinks.left
      obtain ⟨hlast, hrest⟩ := linksLead_inlinedChoices hresolve rest _ hnext hlinks.right
      exact ⟨hlast, linksLead_append hparts hrest⟩

theorem linksLead_inlinedParts (hresolve : ResolvesWithin leads holds resolve) :
    ∀ (parts : List (Part ω)) (state : σ), holds state →
      LinksLead leads (referencesOfParts parts) →
      holds (inlinedParts resolve parts state).2 ∧
        LinksLead leads (referencesOfParts (inlinedParts resolve parts state).1)
  | [], _, h, _ => ⟨h, linksLead_nil⟩
  | .literal _ :: rest, state, h, hlinks => linksLead_inlinedParts hresolve rest state h hlinks
  | .inline rule :: rest, state, h, hlinks => by
      obtain ⟨hnext, hrule⟩ := rule.linksLead_inlined hresolve state h hlinks.left
      obtain ⟨hlast, hrest⟩ := linksLead_inlinedParts hresolve rest _ hnext hlinks.right
      exact ⟨hlast, linksLead_append hrule hrest⟩
  | .reference name link :: rest, state, h, hlinks => by
      have hlink : ∀ index ∈ link, leads name index := by
        rintro index rfl
        exact hlinks name index List.mem_cons_self
      by_cases hlocal : isLocal name
      · obtain ⟨hnext, hrule⟩ := hresolve name state h
        simp only [inlinedParts, hlocal, if_true]
        rcases hanswer : resolve name state with ⟨_ | rule, next⟩ <;> rw [hanswer] at hnext hrule
        · obtain ⟨hlast, hrest⟩ := linksLead_inlinedParts hresolve rest next hnext hlinks.tail
          exact ⟨hlast, linksLead_cons hlink hrest⟩
        · obtain ⟨hlast, hrest⟩ := linksLead_inlinedParts hresolve rest next hnext hlinks.tail
          exact ⟨hlast, linksLead_append (hrule rule rfl) hrest⟩
      · obtain ⟨hlast, hrest⟩ := linksLead_inlinedParts hresolve rest state h hlinks.tail
        simp only [inlinedParts, hlocal, Bool.false_eq_true, if_false]
        exact ⟨hlast, linksLead_cons hlink hrest⟩

end

end Inlined

end PhraseGrammar
