import Mathlib.Algebra.Order.Field.Rat
import PhraseGrammar.Proofs.Inlining.Leftovers
import PhraseGrammar.Proofs.Reading.Reports

namespace PhraseGrammar.Reading

section Gives

variable {α β : Type}

-- What holds of every value that the reader gives.
def Gives (reader : Reader α) (post : α → Prop) : Prop :=
  Ensures reader fun value _ => post value

theorem gives_pure {post : α → Prop} (value : α) (h : post value) :
    Gives (pure value : Reader α) post := by
  intro cursor result left hread
  cases hread
  exact h

theorem gives_fail {post : α → Prop} (cause : Cause) : Gives (fail cause : Reader α) post :=
  fun _ _ _ hread => nomatch hread

theorem Gives.bind {first : Reader α} {next : α → Reader β} {middle : α → Prop} {post : β → Prop}
    (h : Gives first middle) (hnext : ∀ value, middle value → Gives (next value) post) :
    Gives (first >>= next) post := by
  intro cursor result left hread
  obtain ⟨value, between, hfirst, hlast⟩ := bind_eq_ok hread
  exact hnext value (h cursor value between hfirst) between result left hlast

theorem gives_bind {first : Reader α} {next : α → Reader β} {post : β → Prop}
    (hnext : ∀ value, Gives (next value) post) : Gives (first >>= next) post :=
  ensures_bind hnext

-- What comes next is read only if the condition does not call for a failure.
theorem gives_unless (condition : Prop) [Decidable condition] (cause : Cause)
    {next : Unit → Reader α} {post : α → Prop} (hnext : ¬ condition → Gives (next ()) post) :
    Gives (if condition then fail cause >>= next else next ()) post := by
  split
  · exact fun _ _ _ hread => nomatch hread
  · exact hnext ‹_›

end Gives

theorem gives_readWhile (property : Char → Bool) :
    Gives (readWhile property) fun run => ∀ character ∈ run, property character := by
  refine gives_bind fun text => gives_bind fun _ => gives_pure _ ?_
  exact fun character hcharacter => List.all_eq_true.mp List.all_takeWhile character hcharacter

theorem gives_readName : Gives readName IsName := by
  refine (gives_readWhile isNameCharacter).bind fun run hrun => gives_unless _ _ fun hsome => ?_
  refine gives_pure _ ⟨?_, ?_⟩
  · intro hempty
    exact hsome (List.isEmpty_iff.mpr (by simpa using congrArg String.toList hempty))
  · rwa [String.toList_ofList]

variable {ω : Type} [Weight ω]

theorem gives_readNumeral (numeral : List Char) :
    Gives (readNumeral numeral : Reader ω) IsDecimal := by
  refine gives_bind fun _ => ?_
  split
  next digits places _ => exact gives_pure _ ⟨digits, places, rfl⟩
  next => exact gives_fail _

theorem gives_readWeight :
    Gives (readWeight : Reader (Option ω)) fun read => ∀ weight ∈ read, IsDecimal weight := by
  have hsome (numeral : List Char) :
      Gives (do return some (← readNumeral numeral) : Reader (Option ω)) fun read =>
        ∀ weight ∈ read, IsDecimal weight := by
    refine (gives_readNumeral numeral).bind fun weight hweight => gives_pure _ ?_
    rintro _ ⟨⟩
    exact hweight
  refine gives_bind fun text => ?_
  dsimp only
  split
  · split
    · exact gives_bind fun _ => gives_bind fun _ => hsome _
    · exact hsome _
  · exact gives_pure _ nofun
  · exact hsome _
  · exact hsome _

section Choices

-- A draft of a well formed choice, to which a literal may still be added.
structure Draft.WellFormed (draft : Draft ω) : Prop where
  choice : draft.choice.WellFormed IsName
  last : ∀ part ∈ draft.choice.parts.getLast?, part.isLiteral = false

theorem Choice.WellFormed.push (choice : Choice ω) (h : choice.WellFormed IsName) (part : Part ω)
    (hpart : PartsWellFormed IsName [part])
    (hlast : part.isLiteral → ∀ last ∈ choice.parts.getLast?, last.isLiteral = false) :
    (choice.push part).WellFormed IsName :=
  ⟨h.1.concat choice.parts part hlast,
    (partsWellFormed_append choice.parts [part]).mpr ⟨h.2.1, hpart⟩, h.2.2⟩

theorem Draft.wellFormed_empty : (Draft.empty : Draft ω).WellFormed where
  choice := ⟨List.isChain_nil, trivial, nofun⟩
  last := nofun

variable {draft : Draft ω}

theorem Draft.WellFormed.add (h : draft.WellFormed) (text : List Char) :
    (draft.add text).WellFormed :=
  ⟨h.choice, h.last⟩

theorem Draft.WellFormed.finish (h : draft.WellFormed) : draft.finish.WellFormed IsName := by
  unfold Draft.finish Choice.pushLiteral
  split
  · exact h.choice
  · exact Choice.WellFormed.push _ h.choice _ ⟨‹_›, trivial⟩ fun _ => h.last

-- What has been held back is put before the part, so the part stands last.
theorem Draft.WellFormed.push (h : draft.WellFormed) (part : Part ω)
    (hpart : PartsWellFormed IsName [part]) (hliteral : part.isLiteral = false) :
    (draft.push part).WellFormed where
  choice := Choice.WellFormed.push _ h.finish part hpart fun hother => by simp [hliteral] at hother
  last := by
    intro last hlast
    obtain rfl : part = last := by simpa using hlast
    exact hliteral

theorem Draft.WellFormed.addGroup (h : draft.WellFormed) (body : List Char) :
    (draft.addGroup body).WellFormed := by
  unfold Draft.addGroup
  split
  · exact h
  · split
    next hname =>
      simp only [Bool.and_eq_true, Bool.not_eq_true', List.isEmpty_eq_false_iff,
        List.all_eq_true] at hname
      refine h.push _ ⟨⟨⟨?_, ?_⟩, rfl⟩, trivial⟩ rfl
      · exact fun hempty => hname.1 (by simpa using congrArg String.toList hempty)
      · rw [String.toList_ofList]
        exact hname.2
    next => exact h.add body

omit [Weight ω] in
theorem gives_readGroup (text : List Char) (draft : Draft ω) {post : Draft ω → Prop}
    (h : ∀ body, post (draft.addGroup body)) : Gives (readGroup text draft) post := by
  rw [readGroup]
  dsimp only
  split
  · exact gives_bind fun _ => gives_bind fun _ => gives_bind fun _ => gives_pure _ (h _)
  · exact gives_bind fun _ => gives_pure _ (h _)

variable {readInline : Reader (Rule ω)} (hinline : Gives readInline (Rule.WellFormed IsName))

include hinline

theorem gives_readInner (finish : Rule ω → Draft ω)
    (hfinish : ∀ rule, rule.WellFormed IsName → (finish rule).WellFormed) :
    Gives (readInner readInline finish) Draft.WellFormed :=
  gives_bind fun _ => hinline.bind fun rule hrule => gives_pure _ (hfinish rule hrule)

theorem gives_readBraces (h : draft.WellFormed) :
    Gives (readBraces readInline draft) Draft.WellFormed := by
  refine gives_bind fun text => ?_
  split
  · exact gives_bind fun _ => gives_pure _ (h.add _)
  · exact gives_bind fun _ => gives_pure _ (h.add _)
  · refine gives_bind fun _ => gives_readInner hinline _ fun rule hrule => ?_
    exact h.push _ ⟨hrule, trivial⟩ rfl
  · refine gives_bind fun _ => gives_readInner hinline _ fun rule hrule => ?_
    exact h.push _ ⟨by cases rule; exact hrule, trivial⟩ rfl
  · exact gives_readGroup _ draft h.addGroup

theorem gives_readQuotedBody (quote : Char) (steps : Nat) (draft : Draft ω)
    (h : draft.WellFormed) :
    Gives (readQuotedBody readInline quote steps draft) Draft.WellFormed := by
  induction steps generalizing draft with
  | zero => exact gives_pure _ h
  | succ steps ih =>
      refine gives_bind fun text => ?_
      cases text with
      | nil => exact gives_pure _ h
      | cons character rest =>
          dsimp only
          split
          · exact gives_pure _ h
          · split
            · exact (gives_readBraces hinline h).bind fun next hnext => ih next hnext
            · exact gives_bind fun _ => ih _ (h.add _)

theorem gives_readBareBody (steps : Nat) (draft : Draft ω) (spaces : List Char)
    (h : draft.WellFormed) :
    Gives (readBareBody readInline steps draft spaces) Draft.WellFormed := by
  induction steps generalizing draft spaces with
  | zero => exact gives_pure _ h
  | succ steps ih =>
      refine gives_bind fun text => ?_
      split
      · exact gives_pure _ h
      · exact gives_bind fun _ => ih draft spaces h
      · exact (gives_readBraces hinline (h.add spaces)).bind fun next hnext => ih next [] hnext
      · split
        · exact gives_pure _ h
        · split
          · exact gives_bind fun _ => ih draft _ h
          · exact gives_bind fun _ => ih _ [] (h.add _)

theorem gives_readQuoted (quote : Char) :
    Gives (readQuoted readInline quote) (Choice.WellFormed IsName) := by
  refine gives_bind fun _ => gives_bind fun text => ?_
  have hbody := gives_readQuotedBody hinline quote text.length _ Draft.wellFormed_empty
  refine hbody.bind fun draft hdraft => gives_bind fun rest => gives_unless _ _ fun _ => ?_
  refine gives_bind fun _ => gives_bind fun _ => gives_readWeight.bind fun weight hweight => ?_
  exact gives_pure _ ⟨hdraft.finish.1, hdraft.finish.2.1, hweight⟩

theorem gives_readBare : Gives (readBare readInline) (Choice.WellFormed IsName) := by
  refine gives_bind fun text => ?_
  have hbody := gives_readBareBody hinline text.length _ [] Draft.wellFormed_empty
  exact hbody.bind fun draft hdraft => gives_pure _ hdraft.finish

theorem gives_readChoice : Gives (readChoice readInline) (Choice.WellFormed IsName) := by
  refine gives_bind fun text => ?_
  cases text with
  | nil => exact gives_fail _
  | cons character rest =>
      dsimp only
      split
      · exact gives_fail _
      · split
        · exact gives_readQuoted hinline character
        · exact gives_readBare hinline

theorem gives_readMoreChoices (steps : Nat) (choices : List (Choice ω)) (hsome : choices ≠ [])
    (h : ∀ choice ∈ choices, choice.WellFormed IsName) :
    Gives (readMoreChoices readInline steps choices) fun read =>
      read ≠ [] ∧ ∀ choice ∈ read, choice.WellFormed IsName := by
  induction steps generalizing choices with
  | zero => exact gives_pure _ ⟨hsome, h⟩
  | succ steps ih =>
      refine gives_bind fun text => ?_
      split
      · refine gives_bind fun _ => gives_bind fun _ => ?_
        refine (gives_readChoice hinline).bind fun choice hchoice => gives_bind fun _ => ?_
        refine ih _ (by simp) (List.forall_mem_append.mpr ⟨h, ?_⟩)
        exact List.forall_mem_singleton.mpr hchoice
      · exact gives_pure _ ⟨hsome, h⟩

theorem gives_readChoices :
    Gives (readChoices readInline) fun read =>
      read ≠ [] ∧ ∀ choice ∈ read, choice.WellFormed IsName := by
  refine (gives_readChoice hinline).bind fun choice hchoice => ?_
  refine gives_bind fun _ => gives_bind fun text => ?_
  exact gives_readMoreChoices hinline _ _ (List.cons_ne_nil _ _)
    (List.forall_mem_singleton.mpr hchoice)

end Choices

variable (compile : Compiler)

-- Rules in a rule are read one level deeper.
theorem gives_readRule (depth : Nat) :
    Gives (readRule compile depth : Reader (Rule ω)) (Rule.WellFormed IsName) := by
  induction depth with
  | zero => exact gives_fail _
  | succ depth ih =>
      have hinline : Gives (readInline compile depth) (Rule.WellFormed (ω := ω) IsName) :=
        ih.bind fun rule hrule => gives_bind fun _ => gives_pure _ hrule
      rw [readRule_succ]
      refine (gives_readChoices hinline).bind fun choices hchoices => gives_bind fun _ => ?_
      refine gives_pure _ ⟨⟨hchoices.1, ?_⟩, nofun, rfl, (choicesWellFormed_iff _).mpr hchoices.2⟩
      simp

theorem gives_readNamed :
    Gives (readNamed compile : Reader (Option (Assignment ω))) fun read =>
      ∀ assignment ∈ read, IsName assignment.name ∧ assignment.rule.WellFormed IsName := by
  refine gives_readName.bind fun name hname => gives_bind fun _ => ?_
  refine gives_readWeight.bind fun weight hweight => gives_bind fun _ => ?_
  refine gives_bind fun equalized => gives_bind fun _ => gives_bind fun text => ?_
  refine (gives_readRule compile text.length).bind fun rule hrule => gives_bind fun rest => ?_
  have hgiven : (Rule.WellFormed IsName)
      { rule with fixedWeight := weight, equalized := equalized } := by
    obtain ⟨choices, table, _, _, _, mark⟩ := rule
    exact ⟨hrule.1, hweight, hrule.2.2⟩
  split
  · exact gives_pure _ (by rintro _ ⟨⟩; exact ⟨hname, hgiven⟩)
  · exact gives_pure _ (by rintro _ ⟨⟩; exact ⟨hname, hgiven⟩)
  · exact gives_fail _

theorem gives_readAssignment :
    Gives (readAssignment compile : Reader (Option (Assignment ω))) fun read =>
      ∀ assignment ∈ read, IsName assignment.name ∧ assignment.rule.WellFormed IsName := by
  rw [readAssignment_eq]
  refine gives_bind fun _ => gives_bind fun text => ?_
  split
  · exact gives_pure _ nofun
  · exact gives_readNamed compile

-- What is read is added to a well formed grammar, or nothing is.
theorem gives_readInto (grammar : Grammar ω) (h : grammar.WellFormed IsName) :
    Gives (readInto compile grammar) (Grammar.WellFormed IsName) := by
  intro cursor result left hinto
  have hcases := readsInto compile grammar cursor
  rw [hinto] at hcases
  cases hcases with
  | nothing _ _ => exact h
  | added assignment _ hread hname =>
      obtain ⟨hvalid, hrule⟩ := gives_readAssignment compile _ _ _ hread assignment rfl
      refine ⟨?_, ?_, ?_, rfl, h.passes⟩
      · simp only [Grammar.names, List.map_append, List.map_cons, List.map_nil]
        exact Grammar.nodup_append_singleton _ _ h.nodup hname
      · simp only [Grammar.names, List.map_append, List.map_cons, List.map_nil]
        exact List.forall_mem_append.mpr ⟨h.isName, List.forall_mem_singleton.mpr hvalid⟩
      · refine List.forall_mem_append.mpr ⟨h.rules, List.forall_mem_singleton.mpr ?_⟩
        rwa [assignment.rule.unlinked_of_wellFormed hrule]

theorem wellFormed_readTurn (progress : Progress ω) (cursor : Cursor)
    (h : progress.grammar.WellFormed IsName) :
    (readTurn compile progress cursor).1.grammar.WellFormed IsName := by
  rw [readTurn]
  split
  next grammar left hread => exact gives_readInto compile _ h _ _ _ hread
  next failure hread => exact h

theorem wellFormed_readAssignments (text : List Char) :
    (readAssignments compile text : Progress ω).grammar.WellFormed IsName :=
  readTurns_induction compile (wellFormed_readTurn compile) _ _ _
    ⟨List.nodup_nil, nofun, nofun, rfl, rfl⟩

-- A weight that is neither negative nor anything but a number.
def NotNegative (weight : ω) : Prop := weight = 0 ∨ 0 < weight

theorem notNegative_ofDecimal (digits places : Nat) :
    NotNegative (Weight.ofDecimal digits places : Rat) := by
  have hpower : (0 : Rat) < (Nat.pow 10 places : Nat) :=
    Nat.cast_pos.mpr (Nat.pow_pos (by decide))
  rcases Nat.eq_zero_or_pos digits with rfl | hdigits
  · left
    exact (congrArg (· / _) Nat.cast_zero).trans (zero_div _)
  · right
    exact div_pos (Nat.cast_pos.mpr hdigits) hpower

-- Where all numerals stand for weights that are not negative, all the weights
-- of a rule are such.
theorem notNegative_of_wellFormed {mayName : String → Prop}
    (hdecimal : ∀ digits places, NotNegative (Weight.ofDecimal digits places : ω)) (rule : Rule ω)
    (h : rule.WellFormed mayName) :
    (∀ weight ∈ rule.fixedWeight, NotNegative weight) ∧
      ∀ choice ∈ rule.choices, ∀ weight ∈ choice.fixedWeight, NotNegative weight := by
  have hall (weight : ω) : IsDecimal weight → NotNegative weight := by
    rintro ⟨digits, places, rfl⟩
    exact hdecimal digits places
  obtain ⟨choices, _, _, _, _, _⟩ := rule
  obtain ⟨_, hweight, _, hchoices⟩ := h
  constructor
  · exact fun weight hmem => hall weight (hweight weight hmem)
  · intro choice hchoice weight hmem
    have hformed := (choicesWellFormed_iff choices).mp hchoices choice hchoice
    exact hall weight (hformed.2.2 weight hmem)

theorem wellFormed_readGrammar (text : String) :
    (readGrammar compile text : Grammar ω × _).1.WellFormed
        (MayStay (readGrammar compile text : Grammar ω × _).2) ∧
      ∀ name ∈ (readGrammar compile text : Grammar ω × _).1.names, ¬ isLocal name := by
  have hassignments := wellFormed_readAssignments (ω := ω) compile text.toList
  obtain ⟨hinlined, hlocal⟩ := hassignments.inlineLocals
  exact ⟨hinlined.mono (MayStay.mono (List.subset_append_right _ _)), hlocal⟩

-- What is read is well formed, with errors or without: there is one place for
-- each name, no rule is linked or bound, and a local name is left over only
-- where it is reported.
theorem readGrammar_wellFormed (text : String) (grammar : Grammar ω) (reports : List Diagnostic)
    (h : readGrammar compile text = (grammar, reports)) :
    grammar.WellFormed (MayStay reports) ∧
    (∀ name ∈ grammar.names, ¬ isLocal name) ∧
    (∀ name index, grammar.indexOf? name = some index ↔ grammar.nameAt? index = some name) ∧
    (reports = [] → grammar.WellFormed fun name => IsName name ∧ ¬ isLocal name) ∧
    ((∀ digits places, NotNegative (Weight.ofDecimal digits places : ω)) →
      ∀ assignment ∈ grammar.assignments, ∀ inner ∈ assignment.rule.nested,
        (∀ weight ∈ inner.fixedWeight, NotNegative weight) ∧
        ∀ choice ∈ inner.choices, ∀ weight ∈ choice.fixedWeight, NotNegative weight) := by
  have hread := wellFormed_readGrammar (ω := ω) compile text
  rw [h] at hread
  obtain ⟨hformed, hlocal⟩ := hread
  refine ⟨hformed, hlocal, fun name index => ⟨?_, ?_⟩, ?_, ?_⟩
  · exact grammar.nameAt?_of_indexOf? name index
  · exact grammar.indexOf?_of_nameAt? hformed.nodup name index
  · rintro rfl
    exact hformed.mono fun name => (mayStay_nil_iff name).mp
  · intro hdecimal assignment hassignment inner hinner
    exact notNegative_of_wellFormed hdecimal inner
      (Rule.WellFormed.nested assignment.rule (hformed.rules assignment hassignment) inner hinner)

-- Two local names, of which one is assigned, and a name assigned twice.
def localLines : String :=
  "_x = a\x7bb\x7d\nmain 2 = \x7b_x\x7d\x7b_y\x7d | \"c\" .5\nmain = d"

theorem readGrammar_localLines_wellFormed :
    (readGrammar refused localLines : Grammar Rat × _).2 =
        [.unreadable 3 9 (.assignedTwice "main"), .missingLocal "_y"] ∧
      (readGrammar refused localLines : Grammar Rat × _).1.names = ["main"] ∧
      (readGrammar refused localLines : Grammar Rat × _).1.WellFormed
        (MayStay [.unreadable 3 9 (.assignedTwice "main"), .missingLocal "_y"]) ∧
      ∀ assignment ∈ (readGrammar refused localLines : Grammar Rat × _).1.assignments,
        ∀ inner ∈ assignment.rule.nested, ∀ weight ∈ inner.fixedWeight, NotNegative weight := by
  have hreports : (readGrammar refused localLines : Grammar Rat × _).2 =
      [.unreadable 3 9 (.assignedTwice "main"), .missingLocal "_y"] := by
    decide +kernel
  obtain ⟨hformed, _, _, _, hweights⟩ := readGrammar_wellFormed (ω := Rat) refused localLines _ _
    Prod.mk.eta.symm
  rw [hreports] at hformed
  exact ⟨hreports, by decide +kernel, hformed, fun assignment hassignment inner hinner =>
    (hweights notNegative_ofDecimal assignment hassignment inner hinner).1⟩

end PhraseGrammar.Reading
