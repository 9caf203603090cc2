import PhraseGrammar.Proofs.Generation.Depth
import PhraseGrammar.Proofs.Generation.Ending
import PhraseGrammar.Proofs.Grammar.Reachable

namespace PhraseGrammar.Grammar

variable {ω : Type}

-- The rule at one position has a reference that is linked to another.
def LinksTo (grammar : Grammar ω) (index other : Nat) : Prop :=
  ∃ rule name, grammar.ruleAt? index = some rule ∧ (name, some other) ∈ rule.references

-- There is a rule at the position. All tables in it fit their choices, each
-- reference is linked to where its name is assigned, if it is, and no links
-- lead back to the position.
structure WellLinked (grammar : Grammar ω) (index : Nat) : Prop where
  fits : ∃ rule, grammar.ruleAt? index = some rule ∧
    (∀ inner ∈ rule.nested, inner.table.length = inner.choices.length) ∧
    ∀ reference ∈ rule.references, reference.2 = grammar.indexOf? reference.1
  acyclic : ¬ Relation.TransGen grammar.LinksTo index index

-- A transform of a rule that the links lead to can fail with the message.
def FailsFrom (grammar : Grammar ω) (start : Nat) (message : String) : Prop :=
  ∃ index rule, Relation.ReflTransGen grammar.LinksTo start index ∧
    grammar.ruleAt? index = some rule ∧ ∃ inner ∈ rule.nested, ∃ transform ∈ inner.substitutions,
      ∃ text, transform.apply text = .error message

variable [Weight ω] {grammar : Grammar ω} {order : List String}

section Links

variable (h : grammar.Stacked order)

include h

theorem Stacked.refers_of_linksTo (name : String) (hname : name ∈ order) (index other : Nat)
    (hindex : grammar.indexOf? name = some index) (hlink : grammar.LinksTo index other) :
    ∃ next, grammar.indexOf? next = some other ∧ grammar.Refers name next := by
  obtain ⟨rule, next, hat, hreference⟩ := hlink
  have hrule := (grammar.rule?_eq_ruleAt? name index hindex).trans hat
  have hnext : grammar.indexOf? next = some other :=
    (h.link_eq order name hname rule hrule _ hreference).symm
  refine ⟨next, hnext, rule, hrule, ?_, grammar.mem_names_of_indexOf? next other hnext⟩
  exact List.mem_map_of_mem hreference

-- Links lead along the references of the names.
theorem Stacked.reaches_of_links (name : String) (hname : name ∈ order) (index other : Nat)
    (hindex : grammar.indexOf? name = some index)
    (hlinks : Relation.ReflTransGen grammar.LinksTo index other) :
    ∃ next ∈ order, grammar.indexOf? next = some other ∧
      Relation.ReflTransGen grammar.Refers name next := by
  induction hlinks with
  | refl => exact ⟨name, hname, hindex, .refl⟩
  | tail _ hlast ih =>
      obtain ⟨middle, hmiddle, hplace, hreach⟩ := ih
      obtain ⟨next, hnext, hrefers⟩ := h.refers_of_linksTo middle hmiddle _ _ hplace hlast
      exact ⟨next, h.descends.step_mem order _ _ hmiddle hrefers, hnext, hreach.tail hrefers⟩

theorem Stacked.wellLinked (name : String) (hname : name ∈ order) (index : Nat)
    (hindex : grammar.indexOf? name = some index) : grammar.WellLinked index where
  fits := by
    obtain ⟨rule, hat, hrule⟩ := grammar.exists_ruleAt?_of_indexOf? name index hindex
    exact ⟨rule, hat, h.length_table order name hname rule hrule,
      h.link_eq order name hname rule hrule⟩
  acyclic := by
    intro hcycle
    -- A cycle is a first link and a way back.
    obtain ⟨middle, hfirst, hback⟩ := Relation.TransGen.head'_iff.mp hcycle
    obtain ⟨next, hnext, hrefers⟩ := h.refers_of_linksTo name hname _ _ hindex hfirst
    have hmem := h.descends.step_mem order _ _ hname hrefers
    obtain ⟨last, _, hlast, hreach⟩ := h.reaches_of_links next hmem _ _ hnext hback
    obtain rfl := grammar.indexOf?_inj last name index hlast hindex
    exact h.descends.no_cycle order last hname (.head' hrefers hreach)

-- Generation follows the links down the stack.
theorem Stacked.ends_generateAt (start : Nat) (context : Context) (equalizeAll : Bool)
    (name : String) (hname : name ∈ order) (index : Nat)
    (hindex : grammar.indexOf? name = some index)
    (hreach : Relation.ReflTransGen grammar.LinksTo start index) :
    Generation.Ends (grammar.FailsFrom start) (fun _ => True)
      (grammar.generateAt context equalizeAll grammar.assignments.length index) := by
  induction h generalizing name index with
  | nil => simp at hname
  | cons first rule older hrule hbound hnew hbelow holder ih =>
      have hstack := Stacked.cons first rule older hrule hbound hnew hbelow holder
      rcases List.mem_cons.mp hname with rfl | hname
      · have hat := (grammar.rule?_eq_ruleAt? name index hindex).symm.trans hrule
        rw [hstack.generateAt_eq _ context equalizeAll name List.mem_cons_self index hindex rule
          hrule]
        refine rule.ends_generate _ _ context equalizeAll (fun inner hinner => ⟨?_, ?_⟩) ?_
        · exact hstack.length_table _ name List.mem_cons_self rule hrule inner hinner
        · exact fun transform htransform text message happly =>
            ⟨index, rule, hreach, hat, inner, hinner, transform, htransform, text, happly⟩
        · intro other place hreference
          obtain ⟨hmem, hplace⟩ := hstack.mem_of_link name older rule hrule other place hreference
          exact ih other hmem place hplace (hreach.tail ⟨rule, other, hat, hreference⟩)
      · exact ih name hname index hindex hreach

end Links

-- A grammar that has a start has been bound to it last.
theorem Reachable.exists_bind (h : grammar.Reachable) (index : Nat)
    (hstart : grammar.start = some index) :
    ∃ (old : Grammar ω) (start : String), old.Settled ∧ grammar = (old.bind start).1 := by
  cases h with
  | empty => simp [Grammar.empty] at hstart
  | insert old name rule _ =>
      unfold Grammar.insert at hstart
      split at hstart <;> simp at hstart
  | merge old other _ _ => simp [Grammar.merge] at hstart
  | inlineLocals old _ => simp [Grammar.inlineLocals] at hstart
  | bind old start hold => exact ⟨old, start, hold.settled, rfl⟩

-- Generation from a grammar with a start is safe and ends. All that can be
-- reached along the links is there and well linked, and there is a phrase
-- unless a transform fails.
theorem generate_safe (grammar : Grammar ω) (h : grammar.Reachable) (index : Nat)
    (hstart : grammar.start = some index) :
    index < grammar.assignments.length ∧
    (∀ other, Relation.ReflTransGen grammar.LinksTo index other → grammar.WellLinked other) ∧
    ∀ context equalizeAll source,
      (∃ phrase, (grammar.generate context equalizeAll source).1 = .ok phrase) ∨
      ∃ message, grammar.FailsFrom index message ∧
        (grammar.generate context equalizeAll source).1 = .error (.failedTransform message) := by
  obtain ⟨old, start, hold, hbind⟩ := h.exists_bind index hstart
  rw [hbind] at hstart
  obtain ⟨hplace, order, hstack, _, hmem, _⟩ := old.exists_stack hold start index hstart
  rw [indexOf?, ← old.names_bind start hold, ← indexOf?] at hplace
  rw [← hbind] at hstart hstack hplace
  refine ⟨grammar.lt_length_of_indexOf? start index hplace, ?_, ?_⟩
  · intro other hlinks
    obtain ⟨next, hnext, hother, _⟩ := hstack.reaches_of_links start hmem index other hplace hlinks
    exact hstack.wellLinked next hnext other hother
  · intro context equalizeAll source
    have hends :=
      hstack.ends_generateAt index context equalizeAll start hmem index hplace .refl source
    simp only [generate, hstart]
    simpa using hends

-- A choice between two rules, of which one refers to the other.
def fork : Grammar Rat :=
  let main : Rule Rat :=
    .ofChoices [Choice.empty.push (.reference "a" none), Choice.empty.push (.reference "b" none)]
      false [] none
  let a : Rule Rat :=
    .ofChoices [(Choice.empty.push (.literal "x")).push (.reference "b" none)] true [] none
  let b : Rule Rat := .ofChoices [Choice.empty.push (.reference "y" none)] false [] (some 3)
  ((((empty.insert "main" main).1.insert "a" a).1.insert "b" b).1.bind "main").1

theorem generate_fork_safe :
    fork.Reachable ∧ fork.start = some 0 ∧ fork.LinksTo 0 1 ∧ fork.WellLinked 1 ∧
      ((∃ phrase, (fork.generate .empty false (.ofList [1 / 2, 7])).1 = .ok phrase) ∨
        ∃ message, fork.FailsFrom 0 message ∧
          (fork.generate .empty false (.ofList [1 / 2, 7])).1 =
            .error (.failedTransform message)) := by
  have hfork : fork.Reachable := .bind _ _ (.insert _ _ _ (.insert _ _ _ (.insert _ _ _ .empty)))
  have hstart : fork.start = some 0 := by decide
  have hlink : fork.LinksTo 0 1 := ⟨_, "a", rfl, by decide⟩
  obtain ⟨_, hlinked, hends⟩ := generate_safe fork hfork 0 hstart
  exact ⟨hfork, hstart, hlink, hlinked 1 (.single hlink), hends .empty false (.ofList [1 / 2, 7])⟩

end PhraseGrammar.Grammar
