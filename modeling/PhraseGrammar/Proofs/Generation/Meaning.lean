import PhraseGrammar.Proofs.Generation.Depth

namespace PhraseGrammar

variable {ω : Type} [Weight ω]

theorem Rule.generate_marked (rule : Rule ω) (mark : Mark) (follow : Nat → Generation ω String)
    (context : Context) (equalizeAll : Bool) :
    (rule.marked mark).generate follow context equalizeAll =
      rule.generate follow context equalizeAll := by
  cases rule
  rfl

namespace Grammar

-- What a grammar makes of a name: where it is, what it contributes to a choice
-- and how texts are generated from it follow from the rule that it has in
-- another grammar.
structure Means (bound grammar : Grammar ω) (name : String) (index : Nat) (rule : Rule ω) :
    Prop where
  assigned : grammar.rule? name = some rule
  found : bound.found name = some (index, (rule.boundBy bound.found).tally)
  generate (context : Context) (equalizeAll : Bool) :
    bound.generateAt context equalizeAll bound.assignments.length index =
      (rule.boundBy bound.found).generate
        (bound.generateAt context equalizeAll bound.assignments.length) context equalizeAll

-- Binding gives the names that the start leads to their meaning.
theorem exists_means (grammar : Grammar ω) (h : grammar.Settled) (start : String) (index : Nat)
    (hbind : (grammar.bind start).1.start = some index) :
    (∃ rule, (grammar.bind start).1.Means grammar start index rule) ∧
    ∃ order, Descends grammar.Refers order ∧ start ∈ order ∧
      ∀ name ∈ order, ∃ index rule, (grammar.bind start).1.Means grammar name index rule := by
  obtain ⟨hstart, order, hstack, hdescends, hmem, hrules⟩ :=
    grammar.exists_stack h start index hbind
  have hmeans (name : String) (hname : name ∈ order) (place : Nat)
      (hplace : (grammar.bind start).1.indexOf? name = some place) :
      ∃ rule, (grammar.bind start).1.Means grammar name place rule := by
    obtain ⟨rule, mark, hrule, hbound⟩ := hrules name hname
    refine ⟨rule, hrule, ?_, fun context equalizeAll => ?_⟩
    · rw [found, hplace, hbound]
      rfl
    · rw [hstack.generateAt_eq order context equalizeAll name hname place hplace _ hbound,
        Rule.generate_marked]
  rw [indexOf?, ← grammar.names_bind start h, ← indexOf?] at hstart
  refine ⟨hmeans start hmem index hstart, order, hdescends, hmem, fun name hname => ?_⟩
  obtain ⟨place, hplace⟩ := (grammar.bind start).1.exists_indexOf? name
    (hstack.mem_names order name hname)
  exact ⟨place, hmeans name hname place hplace⟩

theorem found_eq_none (grammar : Grammar ω) (name : String) (hname : name ∉ grammar.names) :
    grammar.found name = none := by
  rw [found, (grammar.indexOf?_eq_none_iff name).mpr hname, Option.bind_none]

variable {bound grammar : Grammar ω}

-- The weight and the combinations of a bound grammar are those of the name
-- that it has been bound to.
theorem Means.startRule (name : String) (index : Nat) (rule : Rule ω)
    (h : bound.Means grammar name index rule) (hstart : bound.start = some index) :
    bound.weight = (rule.boundBy bound.found).tally.weight ∧
      bound.combinations = (rule.boundBy bound.found).tally.combinations := by
  have hfound := h.found
  rw [Grammar.found] at hfound
  obtain ⟨place, hplace, hrule⟩ := Option.bind_eq_some_iff.mp hfound
  obtain ⟨own, hown, he⟩ := Option.map_eq_some_iff.mp hrule
  obtain ⟨rfl, htally⟩ := Prod.mk.inj he
  rw [bound.rule?_eq_ruleAt? name place hplace] at hown
  rw [weight, combinations, startRule?, hstart, Option.bind_some, hown, ← htally]
  exact ⟨rfl, rfl⟩

end Grammar

end PhraseGrammar
