import PhraseGrammar.Proofs.Generation.Ending

namespace PhraseGrammar

variable {ω : Type} [Weight ω]

section Recorded

variable (follow : Nat → Generation ω (String × List (Rule ω × Nat))) (context : Context)
  (equalizeAll : Bool)

mutual

-- Generates a text from a rule and records the choices that are made, in their
-- order: the rule that is chosen from, and the place that is selected.
def Rule.recorded : Rule ω → Generation ω (String × List (Rule ω × Nat))
  | ⟨choices, table, equalized, substitutions, fixedWeight, mark⟩ => do
      match ← Generation.select table (equalized || equalizeAll) with
      | none => return (← Generation.transform substitutions "", [])
      | some index =>
          let inner ← recordedChoice choices index
          let text ← Generation.transform substitutions inner.1
          return (text,
            (⟨choices, table, equalized, substitutions, fixedWeight, mark⟩, index) :: inner.2)

def recordedChoice : List (Choice ω) → Nat → Generation ω (String × List (Rule ω × Nat))
  | [], index => throw (.missingChoice index)
  | ⟨parts, _, _, _⟩ :: _, 0 => recordedParts parts
  | _ :: rest, index + 1 => recordedChoice rest index

def recordedParts : List (Part ω) → Generation ω (String × List (Rule ω × Nat))
  | [] => pure ("", [])
  | .literal text :: rest => do
      let others ← recordedParts rest
      return (text ++ others.1, others.2)
  | .inline rule :: rest => do
      let first ← Rule.recorded rule
      let others ← recordedParts rest
      return (first.1 ++ others.1, first.2 ++ others.2)
  | .reference _ (some index) :: rest => do
      let first ← follow index
      let others ← recordedParts rest
      return (first.1 ++ others.1, first.2 ++ others.2)
  | .reference name none :: rest => do
      let others ← recordedParts rest
      return ((context name).getD name ++ others.1, others.2)

end

end Recorded

section Forgetting

variable (follow : Nat → Generation ω (String × List (Rule ω × Nat)))
  (followed : Nat → Generation ω String) (context : Context) (equalizeAll : Bool)

mutual

-- Without the record, what is left is the generation.
theorem Rule.fst_recorded (h : ∀ index, Prod.fst <$> follow index = followed index) :
    ∀ rule : Rule ω,
    Prod.fst <$> rule.recorded follow context equalizeAll =
      rule.generate followed context equalizeAll
  | ⟨choices, table, equalized, substitutions, _, _⟩ => by
      simp only [Rule.recorded, Rule.generate, map_bind]
      congr 1
      funext selected
      cases selected with
      | none => simp only [map_bind, map_pure, bind_pure]
      | some index =>
          simp only [← fst_recordedChoice h choices index, map_bind, map_pure, bind_pure,
            bind_map_left]

theorem fst_recordedChoice (h : ∀ index, Prod.fst <$> follow index = followed index) :
    ∀ (choices : List (Choice ω)) (selected : Nat),
    Prod.fst <$> recordedChoice follow context equalizeAll choices selected =
      generateChoice followed context equalizeAll choices selected
  | [], _ => rfl
  | ⟨parts, _, _, _⟩ :: _, 0 => fst_recordedParts h parts
  | ⟨_, _, _, _⟩ :: rest, selected + 1 => fst_recordedChoice h rest selected

theorem fst_recordedParts (h : ∀ index, Prod.fst <$> follow index = followed index) :
    ∀ parts : List (Part ω),
    Prod.fst <$> recordedParts follow context equalizeAll parts =
      generateParts followed context equalizeAll parts
  | [] => rfl
  | .literal text :: rest => by
      simp only [recordedParts, generateParts, ← fst_recordedParts h rest, map_bind, map_pure,
        bind_map_left]
  | .inline rule :: rest => by
      simp only [recordedParts, generateParts, ← rule.fst_recorded h, ← fst_recordedParts h rest,
        map_bind, map_pure, bind_map_left]
  | .reference _ (some index) :: rest => by
      simp only [recordedParts, generateParts, ← h index, ← fst_recordedParts h rest, map_bind,
        map_pure, bind_map_left]
  | .reference name none :: rest => by
      simp only [recordedParts, generateParts, ← fst_recordedParts h rest, map_bind, map_pure,
        bind_map_left]

end

end Forgetting

namespace Generation

omit [Weight ω]

-- From every source, if both generations come to a value, the values are
-- related and the same numbers have been drawn.
def Lockstep {α β : Type} (related : α → β → Prop) (first : Generation ω α)
    (second : Generation ω β) : Prop :=
  ∀ source value after other last, first source = (.ok value, after) →
    second source = (.ok other, last) → related value other ∧ after = last

variable {α β γ δ : Type}

theorem lockstep_pure (related : α → β → Prop) (value : α) (other : β) (h : related value other) :
    Lockstep related (pure value : Generation ω α) (pure other) := by
  intro source output after second last hfirst hsecond
  obtain ⟨houtput, rfl⟩ := Prod.mk.inj hfirst
  obtain ⟨hvalue, rfl⟩ := Prod.mk.inj hsecond
  obtain rfl := Except.ok.inj houtput
  obtain rfl := Except.ok.inj hvalue
  exact ⟨h, rfl⟩

-- A generation that comes to a value has come to one before.
theorem bind_eq_ok (first : Generation ω α) (next : α → Generation ω β) (source after : Source ω)
    (value : β) (h : (first >>= next) source = (.ok value, after)) :
    ∃ middle between, first source = (.ok middle, between) ∧
      next middle between = (.ok value, after) := by
  rw [bind_apply] at h
  rcases hfirst : first source with ⟨abort | middle, between⟩
  · rw [hfirst] at h
    cases h
  · rw [hfirst] at h
    exact ⟨middle, between, rfl, h⟩

theorem Lockstep.bind (middle : α → β → Prop) (related : γ → δ → Prop)
    (first : Generation ω α) (second : Generation ω β) (next : α → Generation ω γ)
    (later : β → Generation ω δ) (h : Lockstep middle first second)
    (hnext : ∀ value other, middle value other → Lockstep related (next value) (later other)) :
    Lockstep related (first >>= next) (second >>= later) := by
  intro source value after other last hleft hright
  obtain ⟨one, between, hone, hvalue⟩ := bind_eq_ok first next source after value hleft
  obtain ⟨two, again, htwo, hother⟩ := bind_eq_ok second later source last other hright
  obtain ⟨hmiddle, rfl⟩ := h source one between two again hone htwo
  exact hnext one two hmiddle between value after other last hvalue hother

-- Whatever the texts are, transforms draw nothing.
theorem lockstep_transform (transforms : List Transform) (text other : String) :
    Lockstep (fun _ _ => True) (transform transforms text : Generation ω String)
      (transform transforms other) := by
  intro source value after output last hfirst hsecond
  have hstays (input result : String) (final : Source ω)
      (hrun : transform transforms input source = (.ok result, final)) : final = source := by
    unfold transform at hrun
    cases happly : applyAll transforms input with
    | ok phrase =>
        rw [happly] at hrun
        exact (Prod.mk.inj hrun).2.symm
    | error message =>
        rw [happly] at hrun
        cases hrun
  exact ⟨trivial, (hstays text value after hfirst).trans (hstays other output last hsecond).symm⟩

variable [Weight ω]

theorem lockstep_select (table : List ω) (equalized : Bool) :
    Lockstep (· = ·) (select table equalized) (select table equalized) := by
  intro source value after other last hfirst hsecond
  obtain ⟨hvalue, hafter⟩ := Prod.mk.inj (hfirst.symm.trans hsecond)
  exact ⟨Except.ok.inj hvalue, hafter⟩

end Generation

-- Two recorded texts with the same choices.
def SameChoices (first second : String × List (Rule ω × Nat)) : Prop :=
  first.2 = second.2

section Lockstep

variable (follow followed : Nat → Generation ω (String × List (Rule ω × Nat)))
  (context other : Context) (equalizeAll : Bool)

omit [Weight ω] in
theorem lockstep_append (first again rest more : Generation ω (String × List (Rule ω × Nat)))
    (hfirst : Generation.Lockstep SameChoices first again)
    (hrest : Generation.Lockstep SameChoices rest more) :
    Generation.Lockstep SameChoices
      (do
        let one ← first
        let two ← rest
        return (one.1 ++ two.1, one.2 ++ two.2))
      (do
        let one ← again
        let two ← more
        return (one.1 ++ two.1, one.2 ++ two.2)) := by
  refine hfirst.bind SameChoices _ _ _ _ _ fun one two hone => ?_
  refine hrest.bind SameChoices _ _ _ _ _ fun three four hthree => ?_
  have hboth : one.2 ++ three.2 = two.2 ++ four.2 := by rw [hone, hthree]
  exact Generation.lockstep_pure _ _ _ hboth

omit [Weight ω] in
theorem lockstep_after (text output : String)
    (rest more : Generation ω (String × List (Rule ω × Nat)))
    (h : Generation.Lockstep SameChoices rest more) :
    Generation.Lockstep SameChoices
      (do
        let others ← rest
        return (text ++ others.1, others.2))
      (do
        let others ← more
        return (output ++ others.1, others.2)) := by
  refine h.bind SameChoices _ _ _ _ _ fun one two hone => ?_
  exact Generation.lockstep_pure _ _ _ hone

mutual

-- No text has a say in a choice: two contexts lead to different texts from a
-- rule, but to the same choices.
theorem Rule.lockstep_recorded
    (h : ∀ index, Generation.Lockstep SameChoices (follow index) (followed index)) :
    ∀ rule : Rule ω,
    Generation.Lockstep SameChoices (rule.recorded follow context equalizeAll)
      (rule.recorded followed other equalizeAll)
  | ⟨choices, table, equalized, substitutions, _, _⟩ => by
      simp only [Rule.recorded]
      refine (Generation.lockstep_select table _).bind _ _ _ _ _ _ ?_
      rintro selected _ rfl
      cases selected with
      | none =>
          refine (Generation.lockstep_transform substitutions "" "").bind _ _ _ _ _ _ ?_
          exact fun text output _ => Generation.lockstep_pure _ _ _ rfl
      | some index =>
          refine (lockstep_recordedChoice h choices index).bind _ _ _ _ _ _ ?_
          intro inner same hinner
          refine (Generation.lockstep_transform substitutions _ _).bind _ _ _ _ _ _ ?_
          exact fun text output _ => Generation.lockstep_pure _ _ _ (congrArg (List.cons _) hinner)

theorem lockstep_recordedChoice
    (h : ∀ index, Generation.Lockstep SameChoices (follow index) (followed index)) :
    ∀ (choices : List (Choice ω)) (selected : Nat),
    Generation.Lockstep SameChoices (recordedChoice follow context equalizeAll choices selected)
      (recordedChoice followed other equalizeAll choices selected)
  | [], _ => fun _ _ _ _ _ hfirst _ => by cases hfirst
  | ⟨parts, _, _, _⟩ :: _, 0 => lockstep_recordedParts h parts
  | ⟨_, _, _, _⟩ :: rest, selected + 1 => lockstep_recordedChoice h rest selected

theorem lockstep_recordedParts
    (h : ∀ index, Generation.Lockstep SameChoices (follow index) (followed index)) :
    ∀ parts : List (Part ω),
    Generation.Lockstep SameChoices (recordedParts follow context equalizeAll parts)
      (recordedParts followed other equalizeAll parts)
  | [] => Generation.lockstep_pure _ _ _ rfl
  | .literal text :: rest => lockstep_after text text _ _ (lockstep_recordedParts h rest)
  | .inline rule :: rest =>
      lockstep_append _ _ _ _ (rule.lockstep_recorded h) (lockstep_recordedParts h rest)
  | .reference _ (some index) :: rest =>
      lockstep_append _ _ _ _ (h index) (lockstep_recordedParts h rest)
  | .reference _ none :: rest => lockstep_after _ _ _ _ (lockstep_recordedParts h rest)

end

end Lockstep

namespace Grammar

-- Generates a text from the rule at a position, with a record of the choices.
def recordedAt (grammar : Grammar ω) (context : Context) (equalizeAll : Bool) :
    (depth : Nat) → Nat → Generation ω (String × List (Rule ω × Nat))
  | 0, _ => throw .endlessLinks
  | depth + 1, index =>
      match grammar.ruleAt? index with
      | none => throw (.missingRule index)
      | some rule =>
          rule.recorded (recordedAt grammar context equalizeAll depth) context equalizeAll

def recorded (grammar : Grammar ω) (context : Context) (equalizeAll : Bool) :
    Generation ω (String × List (Rule ω × Nat)) :=
  match grammar.start with
  | none => pure (nilPhrase, [])
  | some index => grammar.recordedAt context equalizeAll grammar.assignments.length index

variable (grammar : Grammar ω) (context other : Context) (equalizeAll : Bool)

theorem fst_recordedAt (depth index : Nat) :
    Prod.fst <$> grammar.recordedAt context equalizeAll depth index =
      grammar.generateAt context equalizeAll depth index := by
  induction depth generalizing index with
  | zero => rfl
  | succ depth ih =>
      rw [recordedAt, generateAt]
      cases grammar.ruleAt? index with
      | none => rfl
      | some rule => exact rule.fst_recorded _ _ context equalizeAll ih

theorem fst_recorded :
    Prod.fst <$> grammar.recorded context equalizeAll = grammar.generate context equalizeAll := by
  unfold recorded generate
  cases grammar.start with
  | none => rfl
  | some index => exact grammar.fst_recordedAt context equalizeAll _ index

theorem lockstep_recordedAt (depth index : Nat) :
    Generation.Lockstep SameChoices (grammar.recordedAt context equalizeAll depth index)
      (grammar.recordedAt other equalizeAll depth index) := by
  induction depth generalizing index with
  | zero => exact fun _ _ _ _ _ hfirst _ => by cases hfirst
  | succ depth ih =>
      rw [recordedAt, recordedAt]
      cases grammar.ruleAt? index with
      | none => exact fun _ _ _ _ _ hfirst _ => by cases hfirst
      | some rule => exact rule.lockstep_recorded _ _ context other equalizeAll ih

theorem lockstep_recorded :
    Generation.Lockstep SameChoices (grammar.recorded context equalizeAll)
      (grammar.recorded other equalizeAll) := by
  unfold recorded
  cases grammar.start with
  | none => exact Generation.lockstep_pure _ _ _ rfl
  | some index => exact grammar.lockstep_recordedAt context other equalizeAll _ index

end Grammar

end PhraseGrammar
