import PhraseGrammar.Proofs.Grammar.Names
import PhraseGrammar.Proofs.Reading.Entries

namespace PhraseGrammar.Reading

open Written

variable {ω : Type} [Weight ω] {compile : Compiler}

section Rules

mutual

-- A rule that has been written down has no links.
theorem unlinked_rule : ∀ (body : Body compile) (equalized : Bool) (weight : Option ω),
    (body.rule equalized weight).unlinked = body.rule equalized weight
  | .mk quotations directives, equalized, weight => by
      simp only [Body.rule, Rule.ofChoices, Rule.unlinked, unlinked_choices quotations]

theorem unlinked_choices : ∀ quotations : Quotations compile,
    unlinkedChoices (quotations.choices : List (Choice ω)) = quotations.choices
  | .last quotation => by
      rw [Quotations.choices, unlinked_choice quotation, unlinkedChoices]
  | .more quotation _ rest => by
      rw [Quotations.choices, unlinked_choice quotation, unlinked_choices rest]

theorem unlinked_choice : ∀ (quotation : Quotation compile) (rest : List (Choice ω)),
    unlinkedChoices (quotation.choice :: rest) = quotation.choice :: unlinkedChoices rest
  | .mk pieces gap weight, rest => by
      rw [Quotation.choice, unlinkedChoices, unlinked_parts pieces]

theorem unlinked_parts {free : Bool} : ∀ pieces : Pieces compile free,
    unlinkedParts (pieces.parts : List (Part ω)) = pieces.parts
  | .nil _ => rfl
  | .literal literal rest => by
      rw [Pieces.parts, unlinkedParts, unlinked_parts rest]
  | .reference _ name rest => by
      rw [Pieces.parts, unlinkedParts, unlinked_parts rest]
  | .inline _ equalized _ body _ rest => by
      rw [Pieces.parts, unlinkedParts, unlinked_rule body, unlinked_parts rest]

end

theorem isLocal_name (name : Name) : isLocal name.name = false := by
  have hlocal := name.hlocal
  simpa [isLocal, Name.name] using hlocal

section Locals

variable {σ : Type} (resolve : String → σ → Option (Rule ω) × σ)

mutual

-- It has no local names either, and inlining leaves it as it is.
theorem inlined_rule : ∀ (body : Body compile) (equalized : Bool) (weight : Option ω) (state : σ),
    (body.rule equalized weight).inlined resolve state = (body.rule equalized weight, state)
  | .mk quotations directives, equalized, weight, state => by
      simp only [Body.rule, Rule.ofChoices, Rule.inlined, inlined_choices quotations]

theorem inlined_choices : ∀ (quotations : Quotations compile) (state : σ),
    inlinedChoices resolve (quotations.choices : List (Choice ω)) state =
      (quotations.choices, state)
  | .last (.mk pieces _ weight), state => by
      simp only [Quotations.choices, Quotation.choice, inlinedChoices, inlined_parts pieces]
  | .more (.mk pieces _ weight) _ rest, state => by
      simp only [Quotations.choices, Quotation.choice, inlinedChoices, inlined_parts pieces,
        inlined_choices rest]

theorem inlined_parts {free : Bool} : ∀ (pieces : Pieces compile free) (state : σ),
    inlinedParts resolve (pieces.parts : List (Part ω)) state = (pieces.parts, state)
  | .nil _, _ => rfl
  | .literal literal rest, state => by
      simp only [Pieces.parts, inlinedParts, inlined_parts rest]
  | .reference _ name rest, state => by
      simp only [Pieces.parts, inlinedParts, isLocal_name, Bool.false_eq_true, if_false,
        inlined_parts rest]
  | .inline _ equalized _ body _ rest, state => by
      simp only [Pieces.parts, inlinedParts, inlined_rule body, inlined_parts rest]

end

end Locals

end Rules

section Grammars

def entryNames (entries : List (Entry compile)) : List String :=
  entries.map fun entry => entry.name.name

theorem reads_readInto (grammar : Grammar ω) (entry : Entry compile) (input : List Char)
    (hname : entry.name.name ∉ grammar.names) :
    Reads (readInto compile grammar) (entry.text ++ input)
      { grammar with assignments := grammar.assignments ++ [entry.assignment], start := none }
      ('\n' :: input) := by
  have hindex := (grammar.indexOf?_eq_none_iff entry.name.name).mpr hname
  refine reads_bind (reads_readAssignment entry input) ?_
  simp only [Entry.assignment, Grammar.insert, hindex, unlinked_rule]
  exact reads_pure _ _

theorem reads_readInto_nil (compile : Compiler) (grammar : Grammar ω) (trail : List (Blank true)) :
    Reads (readInto compile grammar) (gapText trail) grammar [] :=
  reads_bind (reads_noAssignment trail) (reads_pure _ _)

theorem readTurn_of_reads (compile : Compiler) (progress : Progress ω) (grammar : Grammar ω)
    (input rest : List Char) (position : Position)
    (h : Reads (readInto compile progress.grammar) input grammar rest) :
    ∃ after, readTurn compile progress ⟨input, position⟩ =
      ({ progress with grammar := grammar }, ⟨rest, after⟩) := by
  obtain ⟨after, hafter⟩ := h position
  exact ⟨after, by rw [readTurn, hafter]⟩

theorem readTurns_atEnd (compile : Compiler) (turns : Nat) (progress : Progress ω)
    (position : Position) :
    readTurns compile turns progress ⟨[], position⟩ = progress := by
  cases turns <;> rfl

theorem readTurns_gapText (compile : Compiler) (turns : Nat) (progress : Progress ω)
    (trail : List (Blank true)) (position : Position) :
    readTurns compile turns progress ⟨gapText trail, position⟩ = progress := by
  cases turns with
  | zero => rfl
  | succ turns =>
      obtain ⟨after, hturn⟩ := readTurn_of_reads compile progress progress.grammar
        (gapText trail) [] position (reads_readInto_nil compile progress.grammar trail)
      simp only [readTurns, hturn, readTurns_atEnd, ite_self]

-- More blanks may come before an entry.
def leading (lead : List (Blank true)) (entry : Entry compile) : Entry compile :=
  { entry with lead := lead ++ entry.lead }

theorem text_leading (lead : List (Blank true)) (entry : Entry compile) :
    gapText lead ++ entry.text = (leading lead entry).text := by
  simp only [leading, Entry.text, gapText, List.flatMap_append, List.append_assoc]

theorem two_le_length_text (entry : Entry compile) : 2 ≤ entry.text.length := by
  have hname := List.length_pos_of_ne_nil entry.name.hne
  simp only [Entry.text, List.length_append, List.length_cons]
  omega

-- Each entry takes one turn, which stops at the newline that ends it.
theorem readTurns_entries (entries : List (Entry compile)) (lead trail : List (Blank true))
    (turns : Nat) (assignments : List (Assignment ω)) (position : Position)
    (hturns : (entries.flatMap Entry.text).length ≤ turns)
    (hnames : (assignments.map Assignment.name ++ entryNames entries).Nodup) :
    readTurns compile turns ⟨⟨assignments, none, 0⟩, []⟩
        ⟨gapText lead ++ (entries.flatMap Entry.text ++ gapText trail), position⟩ =
      ⟨⟨assignments ++ entries.map Entry.assignment, none, 0⟩, []⟩ := by
  induction entries generalizing lead turns assignments position with
  | nil =>
      have htrail := readTurns_gapText compile turns
        (⟨⟨assignments, none, 0⟩, []⟩ : Progress ω) (lead ++ trail) position
      simp only [gapText, List.flatMap_append] at htrail
      simpa only [gapText, List.flatMap_nil, List.nil_append, List.map_nil, List.append_nil] using
        htrail
  | cons entry rest ih =>
      have hlength : entry.text.length + (rest.flatMap Entry.text).length ≤ turns := by
        simpa only [List.flatMap_cons, List.length_append] using hturns
      have htwo := two_le_length_text entry
      obtain ⟨turns, rfl⟩ := Nat.exists_eq_add_of_le' (show 1 ≤ turns by omega)
      have hname : (leading lead entry).name.name ∉ assignments.map Assignment.name := fun hm =>
        (List.nodup_append.mp hnames).2.2 _ hm _ List.mem_cons_self rfl
      have hrest : ((assignments ++ [entry.assignment]).map Assignment.name ++
          entryNames rest).Nodup := by
        rw [List.map_append, List.append_assoc]
        exact hnames
      obtain ⟨after, hturn⟩ := readTurn_of_reads compile
        (⟨⟨assignments, none, 0⟩, []⟩ : Progress ω) _ _ _ position
        (reads_readInto _ (leading lead entry) (rest.flatMap Entry.text ++ gapText trail) hname)
      -- The newline that is left is a blank before the next entry.
      have hmore := ih [.newline] turns (assignments ++ [entry.assignment]) after (by omega) hrest
      have hsome : ¬ (⟨(leading lead entry).text ++ (rest.flatMap Entry.text ++ gapText trail),
          position⟩ : Cursor).atEnd = true := by
        have := two_le_length_text (leading lead entry)
        simp only [Cursor.atEnd, List.isEmpty_iff, List.append_eq_nil_iff]
        rintro ⟨he, -⟩
        simp [he] at this
      rw [List.flatMap_cons, List.append_assoc, ← List.append_assoc (gapText lead), text_leading,
        readTurns, if_neg hsome, hturn]
      rw [List.append_assoc] at hmore
      exact hmore

theorem inlineAssignments_entries (grammar : Grammar ω) (entries : List (Entry compile))
    (pass : InliningPass ω) :
    grammar.inlineAssignments (entries.map Entry.assignment) pass =
      (entries.map Entry.assignment, pass) := by
  induction entries with
  | nil => rfl
  | cons entry rest ih =>
      rw [List.map_cons, Entry.assignment, Grammar.inlineAssignments, isLocal_name,
        if_neg Bool.false_ne_true, inlined_rule]
      simp only [ih]

-- A grammar that has been written down is read back with no reports, its
-- assignments in the order in which they were written.
theorem readGrammar_text (entries : List (Entry compile)) (trail : List (Blank true))
    (hnames : (entryNames entries).Nodup) :
    readGrammar compile (String.ofList (entries.flatMap Entry.text ++ gapText trail)) =
      ((⟨entries.map Entry.assignment, none, 0⟩ : Grammar ω), []) := by
  have hread : readAssignments compile (entries.flatMap Entry.text ++ gapText trail) =
      (⟨⟨entries.map Entry.assignment, none, 0⟩, []⟩ : Progress ω) :=
    readTurns_entries entries [] trail _ [] Position.start (by simp) hnames
  simp only [readGrammar, String.toList_ofList, hread, Grammar.inlineLocals,
    inlineAssignments_entries, List.append_nil]

end Grammars

-- Every directive is compiled to a transform with the name of its pattern.
def namedTransforms : Compiler := fun pattern _ _ => .ok ⟨pattern, .ok⟩

def letter (character : Char) (hcharacter : isNameCharacter character ∧ character ≠ '_') : Name :=
  ⟨[character], List.cons_ne_nil _ _, List.forall_mem_singleton.mpr hcharacter.1,
    by simpa using hcharacter.2⟩

def digit (character : Char) (hcharacter : character.isDigit) : Numeral :=
  ⟨[character], none, List.forall_mem_singleton.mpr hcharacter, List.forall_mem_nil _, by simp⟩

-- Two lines, `m 2:="{(}{n}"|"{="x" 5}"~/y//g` and `n="z"`.
def writtenPair : List (Entry namedTransforms) :=
  let opened : Pieces namedTransforms true :=
    .literal ⟨['{'], by decide⟩ (.reference false (letter 'n' (by decide)) (.nil true))
  let inner : Body namedTransforms :=
    .mk (.last (.mk (.literal ⟨['x'], by decide⟩ (.nil false)) [.space false]
      (some (digit '5' rfl, [])))) []
  let directive : Directive namedTransforms :=
    ⟨⟨[], none⟩, '/', ['y'], [], true, [], ⟨String.ofList ['y'], .ok⟩, by decide, by decide,
      by decide, rfl⟩
  let main : Body namedTransforms :=
    .mk (.more (.mk opened [] none) ⟨[], none⟩
      (.last (.mk (.inline true false [] inner none (.nil true)) [] none))) [directive]
  let last : Body namedTransforms :=
    .mk (.last (.mk (.literal ⟨['z'], by decide⟩ (.nil false)) [] none)) []
  [⟨[], letter 'm' (by decide), [.space false], some (digit '2' rfl, []), true, ⟨[], none⟩, main,
      by decide⟩,
    ⟨[], letter 'n' (by decide), [], none, false, ⟨[], none⟩, last, by decide⟩]

theorem readGrammar_writtenPair :
    String.ofList (writtenPair.flatMap Entry.text ++ gapText [.newline]) =
        "m 2:=\"\x7b(\x7d\x7bn\x7d\"|\"\x7b=\"x\" 5\x7d\"~/y//g\nn=\"z\"\n\n" ∧
      (entryNames writtenPair).Nodup ∧
      readGrammar namedTransforms
          (String.ofList (writtenPair.flatMap Entry.text ++ gapText [.newline])) =
        ((⟨writtenPair.map Entry.assignment, none, 0⟩ : Grammar Rat), []) := by
  have hnames : (entryNames writtenPair).Nodup := by decide +kernel
  exact ⟨by decide +kernel, hnames, readGrammar_text writtenPair [.newline] hnames⟩

-- A line with one directive, whatever its separator is.
def directiveLine (separator : Char) (pattern replacement : List Char) : String :=
  String.ofList (['m', '=', '\"', 'x', '\"', '~', separator] ++ pattern ++
    separator :: (replacement ++ [separator, '\n']))

-- A brace does not separate, a text ends at its first separator, and a
-- directive needs a transform.
theorem readGrammar_directiveLine :
    (readGrammar namedTransforms (directiveLine '{' ['a'] ['b']) : Grammar Rat × _).2 =
        [.unreadable 1 7 .braceSeparator] ∧
      (readGrammar namedTransforms (directiveLine '/' ['a', '/'] ['b']) : Grammar Rat × _).2 =
        [.unreadable 1 11 .lineEndExpected] ∧
      (readGrammar namedTransforms (directiveLine '/' ['a'] ['b', '/']) : Grammar Rat × _).2 =
        [.unreadable 1 12 .lineEndExpected] ∧
      (readGrammar (fun _ _ _ => .error "refused") (directiveLine '/' ['a'] ['b']) :
          Grammar Rat × _).2 =
        [.unreadable 1 12 (.refusedSubstitution "refused")] := by
  simp only [readGrammar, directiveLine, String.toList_ofList]
  decide +kernel

end PhraseGrammar.Reading
