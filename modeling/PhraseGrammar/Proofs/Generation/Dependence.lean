import PhraseGrammar.Proofs.Binding.Agreement
import PhraseGrammar.Proofs.Binding.Content
import PhraseGrammar.Proofs.Binding.Recursion
import PhraseGrammar.Proofs.Generation.Content
import PhraseGrammar.Proofs.Generation.Meaning

namespace PhraseGrammar.Grammar

variable {ω : Type} [Weight ω]

-- The grammars say the same under every name that can be reached from `start`.
def SameBelow (grammar other : Grammar ω) (start : String) : Prop :=
  ∀ name, Relation.ReflTransGen grammar.Mentions start name →
    (grammar.rule? name).map Rule.content = (other.rule? name).map Rule.content

-- Binding to `start` does the same for both grammars: what is reported, whether
-- it succeeds, and what the bound grammar weighs, counts and generates.
structure SameOutcome (grammar other : Grammar ω) (start : String) : Prop where
  reports : (grammar.bind start).2 = (other.bind start).2
  success : (grammar.bind start).1.start.isSome = (other.bind start).1.start.isSome
  weight : (grammar.bind start).1.weight = (other.bind start).1.weight
  combinations : (grammar.bind start).1.combinations = (other.bind start).1.combinations
  generate (context : Context) (equalizeAll : Bool) (source : Source ω) :
    (grammar.bind start).1.generate context equalizeAll source =
      (other.bind start).1.generate context equalizeAll source

variable {grammar other : Grammar ω} {start : String}

theorem SameBelow.sameMentions (h : grammar.SameBelow other start) (name : String)
    (hreach : Relation.ReflTransGen grammar.Mentions start name) :
    grammar.SameMentions other name := by
  have hsame := congrArg (Option.map Rule.mentions) (h name hreach)
  simpa [SameMentions, Function.comp_def] using hsame

section Names

variable {bound bound' : Grammar ω} (order order' : List String)
  (hbound : bound.names = grammar.names) (hbound' : bound'.names = other.names)
  (horder : Descends grammar.Refers order) (horder' : Descends other.Refers order')
  (hmeans : ∀ name ∈ order, ∃ index rule, bound.Means grammar name index rule)
  (hmeans' : ∀ name ∈ order', ∃ index rule, bound'.Means other name index rule)
  (context : Context) (equalizeAll : Bool)

include hbound hbound' horder horder' hmeans hmeans'

-- A name that can be reached means the same after both bindings. The induction
-- follows the references of the first grammar.
theorem SameBelow.matches (h : grammar.SameBelow other start) (name : String)
    (hreach : Relation.ReflTransGen grammar.Mentions start name) (hname : name ∈ order)
    (hname' : name ∈ order') :
    Matches bound.found bound'.found
      (bound.generateAt context equalizeAll bound.assignments.length)
      (bound'.generateAt context equalizeAll bound'.assignments.length) name := by
  have hacc := horder.acc order name hname
  induction hacc with
  | intro name _ ih =>
      obtain ⟨index, rule, hmeaning⟩ := hmeans name hname
      obtain ⟨index', rule', hmeaning'⟩ := hmeans' name hname'
      have hcontent := h name hreach
      rw [hmeaning.assigned, hmeaning'.assigned, Option.map_some, Option.map_some,
        Option.some.injEq] at hcontent
      have hmentions := (h.sameMentions name hreach).mentions_eq rule rule' hmeaning.assigned
        hmeaning'.assigned
      obtain ⟨htally, hgenerate⟩ := rule.meaning_eq bound.found bound'.found
        (bound.generateAt context equalizeAll bound.assignments.length)
        (bound'.generateAt context equalizeAll bound'.assignments.length) context equalizeAll rule'
        hcontent fun next hnext => by
          have hbelow := hreach.tail ⟨rule, hmeaning.assigned, hnext⟩
          have hiff := (h.sameMentions next hbelow).mem_names_iff
          by_cases hassigned : next ∈ grammar.names
          · have hrefers : grammar.Refers name next :=
              ⟨rule, hmeaning.assigned, hnext, hassigned⟩
            have hrefers' : other.Refers name next :=
              ⟨rule', hmeaning'.assigned, hmentions ▸ hnext, hiff.mp hassigned⟩
            exact ih next hrefers hbelow (horder.step_mem order _ _ hname hrefers)
              (horder'.step_mem order' _ _ hname' hrefers')
          · exact .inl ⟨bound.found_eq_none next (hbound ▸ hassigned),
              bound'.found_eq_none next (hbound' ▸ fun hm => hassigned (hiff.mpr hm))⟩
      refine .inr ⟨index, index', _, hmeaning.found, htally ▸ hmeaning'.found, ?_⟩
      rw [hmeaning.generate, hmeaning'.generate, hgenerate]

theorem SameBelow.meaning_eq (h : grammar.SameBelow other start) (hstart : start ∈ order)
    (hstart' : start ∈ order') (index index' : Nat) (rule rule' : Rule ω)
    (hmeaning : bound.Means grammar start index rule)
    (hmeaning' : bound'.Means other start index' rule') :
    (rule.boundBy bound.found).tally = (rule'.boundBy bound'.found).tally ∧
      bound.generateAt context equalizeAll bound.assignments.length index =
        bound'.generateAt context equalizeAll bound'.assignments.length index' := by
  have hmatch := h.matches order order' hbound hbound' horder horder' hmeans hmeans' context
    equalizeAll start .refl hstart hstart'
  rcases hmatch with ⟨hnone, _⟩ | ⟨_, _, tally, hfind, hfound, hfollow⟩
  · simp [hmeaning.found] at hnone
  · obtain ⟨rfl, rfl⟩ := Prod.mk.inj (Option.some.inj (hmeaning.found.symm.trans hfind))
    obtain ⟨rfl, htally⟩ := Prod.mk.inj (Option.some.inj (hmeaning'.found.symm.trans hfound))
    exact ⟨htally.symm, hfollow⟩

end Names

-- What binding does hangs on what can be reached from the start.
theorem SameBelow.outcome (h : grammar.SameBelow other start) (hgrammar : grammar.Settled)
    (hother : other.Settled) : grammar.SameOutcome other start := by
  have hreports := reports_bind_eq grammar other hgrammar hother start h.sameMentions
  have hstarts := (h.sameMentions start .refl).mem_names_iff
  have hsuccess : (grammar.bind start).1.start.isSome = (other.bind start).1.start.isSome := by
    rw [start_bind _ hgrammar, start_bind _ hother, hreports]
    split
    · rw [Bool.eq_iff_iff, isSome_indexOf?_iff, isSome_indexOf?_iff, hstarts]
    · rfl
  cases hindex : (grammar.bind start).1.start with
  | none =>
      have hindex' : (other.bind start).1.start = none := by simpa [hindex] using hsuccess.symm
      refine ⟨hreports, hsuccess, ?_, ?_, fun _ _ _ => ?_⟩
      · simp only [weight, startRule?, hindex, hindex', Option.bind_none]
      · simp only [combinations, startRule?, hindex, hindex', Option.bind_none]
      · simp only [generate, hindex, hindex']
  | some index =>
      obtain ⟨index', hindex'⟩ := Option.isSome_iff_exists.mp
        (hsuccess ▸ Option.isSome_iff_exists.mpr ⟨index, hindex⟩)
      obtain ⟨⟨rule, hrule⟩, order, horder, hmem, hmeans⟩ :=
        grammar.exists_means hgrammar start index hindex
      obtain ⟨⟨rule', hrule'⟩, order', horder', hmem', hmeans'⟩ :=
        other.exists_means hother start index' hindex'
      have hsame (context : Context) (equalizeAll : Bool) :=
        h.meaning_eq order order' (grammar.names_bind start hgrammar)
          (other.names_bind start hother) horder horder' hmeans hmeans' context equalizeAll hmem
          hmem' index index' rule rule' hrule hrule'
      obtain ⟨hweight, hcount⟩ := hrule.startRule start index rule hindex
      obtain ⟨hweight', hcount'⟩ := hrule'.startRule start index' rule' hindex'
      have htally := (hsame .empty false).1
      refine ⟨hreports, hsuccess, ?_, ?_, fun context equalizeAll source => ?_⟩
      · rw [hweight, hweight', htally]
      · rw [hcount, hcount', htally]
      · simp only [generate, hindex, hindex', (hsame context equalizeAll).2]

-- The outcome of binding hangs on nothing but what the names say that can be
-- reached from the start. An earlier binding, the order of the assignments and
-- names that cannot be reached do not matter.
theorem bind_depends_on_content (grammar : Grammar ω) (h : grammar.Reachable) (start : String) :
    (∀ other : Grammar ω, other.Reachable → grammar.SameBelow other start →
      grammar.SameOutcome other start) ∧
    (∀ earlier, grammar.SameOutcome (grammar.bind earlier).1 start) ∧
    (∀ other : Grammar ω, other.Reachable → grammar.assignments.Perm other.assignments →
      grammar.SameOutcome other start) ∧
    ∀ name rule, ¬ Relation.ReflTransGen grammar.Mentions start name →
      grammar.SameOutcome (grammar.insert name rule).1 start := by
  have hsettled := h.settled
  refine ⟨fun other hother hsame => hsame.outcome hsettled hother.settled, ?_, ?_, ?_⟩
  · intro earlier
    have hsame : grammar.SameBelow (grammar.bind earlier).1 start :=
      fun name _ => (grammar.content_bind hsettled earlier name).symm
    exact hsame.outcome hsettled (h.bind grammar earlier).settled
  · intro other hother hperm
    have hsame : grammar.SameBelow other start :=
      fun name _ => by rw [grammar.rule?_perm other hsettled.nodup hperm]
    exact hsame.outcome hsettled hother.settled
  · intro name rule hname
    have hsame : grammar.SameBelow (grammar.insert name rule).1 start := by
      intro other hreach
      rw [grammar.rule?_insert_of_ne name rule other fun he => hname (he ▸ hreach)]
    exact hsame.outcome hsettled (h.insert grammar name rule).settled

def greeting : Rule Rat :=
  .ofChoices [(Choice.empty.push (.reference "name" none)).push (.literal "!"),
    Choice.empty.push (.reference "guest" none)] false [] none

def person : Rule Rat :=
  .ofChoices [Choice.empty.push (.literal "Ann"), Choice.empty.push (.literal "Bob")] false []
    (some 5)

def orderly : Grammar Rat := ((empty.insert "main" greeting).1.insert "name" person).1

-- The same rules in another order, next to one that is not reached, after a
-- binding to another name.
def shuffled : Grammar Rat :=
  ((((empty.insert "name" person).1.insert "rest" greeting).1.insert "main" greeting).1.bind
    "name").1

theorem bind_shuffled_outcome :
    orderly.Reachable ∧ shuffled.Reachable ∧ orderly.SameBelow shuffled "main" ∧
      (orderly.bind "main").1.start = some 0 ∧ (shuffled.bind "main").1.start = some 2 ∧
      orderly.SameOutcome shuffled "main" := by
  have horderly : orderly.Reachable := .insert _ _ _ (.insert _ _ _ .empty)
  have hshuffled : shuffled.Reachable :=
    .bind _ _ (.insert _ _ _ (.insert _ _ _ (.insert _ _ _ .empty)))
  have hclosed : ∀ name ∈ ["main", "name", "guest"],
      ((orderly.rule? name).map Rule.mentions).getD [] ⊆ ["main", "name", "guest"] := by decide
  have hsame : orderly.SameBelow shuffled "main" := by
    intro name hreach
    have hname := orderly.reach_mem _ hclosed "main" name (by decide) hreach
    simp only [List.mem_cons, List.not_mem_nil, or_false] at hname
    rcases hname with rfl | rfl | rfl <;> rfl
  exact ⟨horderly, hshuffled, hsame, by decide, by decide,
    (bind_depends_on_content orderly horderly "main").1 shuffled hshuffled hsame⟩

end PhraseGrammar.Grammar
