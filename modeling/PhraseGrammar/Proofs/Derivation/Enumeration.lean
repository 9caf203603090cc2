import Mathlib.Data.List.Nodup
import PhraseGrammar.Proofs.Derivation.Below

namespace PhraseGrammar

variable {ω : Type}

-- Every derivation before every continuation.
def expandWith (derivations : List (Derivation ω)) (rest : List (List (Piece ω))) :
    List (List (Piece ω)) :=
  derivations.flatMap fun derivation => rest.map (.derived derivation :: ·)

@[simp] theorem length_expandWith (derivations : List (Derivation ω))
    (rest : List (List (Piece ω))) :
    (expandWith derivations rest).length = derivations.length * rest.length := by
  simp [expandWith, List.length_flatMap]

theorem mem_expandWith (derivations : List (Derivation ω)) (rest : List (List (Piece ω)))
    (pieces : List (Piece ω)) :
    pieces ∈ expandWith derivations rest ↔
      ∃ derivation ∈ derivations, ∃ more ∈ rest, pieces = .derived derivation :: more := by
  simp only [expandWith, List.mem_flatMap, List.mem_map, eq_comm]

theorem nodup_expandWith (derivations : List (Derivation ω)) (rest : List (List (Piece ω)))
    (hderivations : derivations.Nodup) (hrest : rest.Nodup) :
    (expandWith derivations rest).Nodup := by
  refine List.nodup_flatMap.mpr ⟨fun _ _ => hrest.map (List.cons_injective), ?_⟩
  refine hderivations.imp fun hne pieces hfirst hsecond => ?_
  obtain ⟨_, _, rfl⟩ := List.mem_map.mp hfirst
  obtain ⟨_, _, hsame⟩ := List.mem_map.mp hsecond
  exact hne (Piece.derived.inj (List.cons.inj hsame).1).symm

section Parts

variable (follow : Nat → List (Derivation ω))

mutual

-- All complete derivations of a rule. `follow` holds those of the rules that
-- references are linked to.
def Rule.derivations : Rule ω → List (Derivation ω)
  | ⟨choices, table, equalized, substitutions, fixedWeight, mark⟩ =>
      (expansionsOfChoices choices 0).map fun entry =>
        .choice ⟨choices, table, equalized, substitutions, fixedWeight, mark⟩ entry.1 entry.2

-- Along with the pieces goes the place of the choice, counted from the given
-- number.
def expansionsOfChoices : List (Choice ω) → Nat → List (Nat × List (Piece ω))
  | [], _ => []
  | ⟨parts, _, _, _⟩ :: rest, index =>
      (expansions parts).map (fun pieces => (index, pieces)) ++
        expansionsOfChoices rest (index + 1)

def expansions : List (Part ω) → List (List (Piece ω))
  | [] => [[]]
  | .literal text :: rest => (expansions rest).map (.literal text :: ·)
  | .reference name none :: rest => (expansions rest).map (.outside name :: ·)
  | .reference _ (some index) :: rest => expandWith (follow index) (expansions rest)
  | .inline rule :: rest => expandWith (Rule.derivations rule) (expansions rest)

end

end Parts

namespace Grammar

def derivationsAt (grammar : Grammar ω) : (depth : Nat) → Nat → List (Derivation ω)
  | 0, _ => []
  | depth + 1, index =>
      match grammar.ruleAt? index with
      | none => []
      | some rule => rule.derivations (derivationsAt grammar depth)

variable (grammar : Grammar ω) (follow : Nat → List (Derivation ω))

section Expands

variable {grammar} {parts : List (Part ω)} {pieces : List (Piece ω)}

@[simp] theorem expands_nil_iff : grammar.Expands [] pieces ↔ pieces = [] := by
  constructor
  · rintro ⟨⟩
    rfl
  · rintro rfl
    exact .nil

theorem expands_literal_iff (text : String) :
    grammar.Expands (.literal text :: parts) pieces ↔
      ∃ more, grammar.Expands parts more ∧ pieces = .literal text :: more := by
  constructor
  · intro h
    cases h with
    | literal _ _ more hrest => exact ⟨more, hrest, rfl⟩
    | derived _ _ _ _ _ hpart => simp [ruleOf?] at hpart
  · rintro ⟨more, hrest, rfl⟩
    exact .literal text parts more hrest

theorem expands_outside_iff (name : String) :
    grammar.Expands (.reference name none :: parts) pieces ↔
      ∃ more, grammar.Expands parts more ∧ pieces = .outside name :: more := by
  constructor
  · intro h
    cases h with
    | outside _ _ more hrest => exact ⟨more, hrest, rfl⟩
    | derived _ _ _ _ _ hpart => simp [ruleOf?] at hpart
  · rintro ⟨more, hrest, rfl⟩
    exact .outside name parts more hrest

theorem expands_rule_iff (part : Part ω) (rule : Rule ω)
    (hpart : grammar.ruleOf? part = some rule) :
    grammar.Expands (part :: parts) pieces ↔
      ∃ derivation more, grammar.Derives rule derivation ∧ grammar.Expands parts more ∧
        pieces = .derived derivation :: more := by
  constructor
  · intro h
    cases h with
    | literal _ _ _ _ => simp [ruleOf?] at hpart
    | outside _ _ _ _ => simp [ruleOf?] at hpart
    | derived _ own derivation _ more hown hderivation hrest =>
        obtain rfl : rule = own := Option.some.inj (hpart.symm.trans hown)
        exact ⟨derivation, more, hderivation, hrest, rfl⟩
  · rintro ⟨derivation, more, hderivation, hrest, rfl⟩
    exact .derived part rule derivation parts more hpart hderivation hrest

-- The continuations after a part that leads to a rule with known derivations.
theorem mem_expandWith_iff (part : Part ω) (rule : Rule ω) (all : List (Derivation ω))
    (rest : List (List (Piece ω))) (hpart : grammar.ruleOf? part = some rule)
    (hall : grammar.Enumerates rule all)
    (hrest : ∀ more, more ∈ rest ↔ grammar.Expands parts more ∧ CompletePieces more) :
    pieces ∈ expandWith all rest ↔
      grammar.Expands (part :: parts) pieces ∧ CompletePieces pieces := by
  rw [mem_expandWith, expands_rule_iff part rule hpart]
  constructor
  · rintro ⟨derivation, hderivation, more, hmore, rfl⟩
    obtain ⟨hderives, hcomplete⟩ := (hall.mem_iff derivation).mp hderivation
    obtain ⟨hexpands, hcompletes⟩ := (hrest more).mp hmore
    exact ⟨⟨derivation, more, hderives, hexpands, rfl⟩, hcomplete, hcompletes⟩
  · rintro ⟨⟨derivation, more, hderives, hexpands, rfl⟩, hcomplete, hcompletes⟩
    exact ⟨derivation, (hall.mem_iff derivation).mpr ⟨hderives, hcomplete⟩, more,
      (hrest more).mpr ⟨hexpands, hcompletes⟩, rfl⟩

-- The continuations after a part that nothing is taken from.
theorem mem_map_cons_iff (part : Part ω) (piece : Piece ω) (rest : List (List (Piece ω)))
    (hexpands : ∀ pieces, grammar.Expands (part :: parts) pieces ↔
      ∃ more, grammar.Expands parts more ∧ pieces = piece :: more)
    (hcomplete : ∀ more, CompletePieces (piece :: more) ↔ CompletePieces more)
    (hrest : ∀ more, more ∈ rest ↔ grammar.Expands parts more ∧ CompletePieces more) :
    pieces ∈ rest.map (piece :: ·) ↔
      grammar.Expands (part :: parts) pieces ∧ CompletePieces pieces := by
  rw [List.mem_map, hexpands]
  constructor
  · rintro ⟨more, hmore, rfl⟩
    obtain ⟨hparts, hpieces⟩ := (hrest more).mp hmore
    exact ⟨⟨more, hparts, rfl⟩, (hcomplete more).mpr hpieces⟩
  · rintro ⟨⟨more, hparts, rfl⟩, hpieces⟩
    exact ⟨more, (hrest more).mpr ⟨hparts, (hcomplete more).mp hpieces⟩, rfl⟩

end Expands

mutual

theorem enumerates_derivations : ∀ rule : Rule ω,
    grammar.LinksHold (fun index rule => grammar.Enumerates rule (follow index)) rule.references →
    grammar.Enumerates rule (rule.derivations follow)
  | ⟨choices, table, equalized, substitutions, fixedWeight, mark⟩, h => by
      obtain ⟨hnodup, hmem⟩ := enumerates_expansionsOfChoices choices 0 h
      rw [Rule.derivations]
      constructor
      · refine hnodup.map fun entry other hsame => ?_
        exact Prod.ext (Derivation.choice.inj hsame).2.1 (Derivation.choice.inj hsame).2.2
      · intro derivation
        constructor
        · intro hderivation
          obtain ⟨⟨index, pieces⟩, hentry, rfl⟩ := List.mem_map.mp hderivation
          obtain ⟨place, choice, hplace, hchoice, hexpands, hcomplete⟩ := (hmem _ _).mp hentry
          obtain rfl : index = place := by omega
          exact ⟨.choice _ index choice pieces hchoice hexpands, hcomplete⟩
        · rintro ⟨hderives, hcomplete⟩
          cases hderives with
          | nothing => exact hcomplete.elim
          | choice _ index choice pieces hchoice hexpands =>
              refine List.mem_map.mpr ⟨(index, pieces), (hmem _ _).mpr ?_, rfl⟩
              exact ⟨index, choice, by omega, hchoice, hexpands, hcomplete⟩

theorem enumerates_expansionsOfChoices : ∀ (choices : List (Choice ω)) (first : Nat),
    grammar.LinksHold (fun index rule => grammar.Enumerates rule (follow index))
      (referencesOfChoices choices) →
    (expansionsOfChoices follow choices first).Nodup ∧
      ∀ index pieces, (index, pieces) ∈ expansionsOfChoices follow choices first ↔
        ∃ place choice, index = first + place ∧ choices[place]? = some choice ∧
          grammar.Expands choice.parts pieces ∧ CompletePieces pieces
  | [], _, _ => by simp [expansionsOfChoices]
  | ⟨parts, product, fixedWeight, combinations⟩ :: rest, first, h => by
      obtain ⟨hparts, hmem⟩ := enumerates_expansions parts h.left
      obtain ⟨hrest, hmore⟩ := enumerates_expansionsOfChoices rest (first + 1) h.right
      rw [expansionsOfChoices]
      constructor
      · refine List.nodup_append.mpr ⟨hparts.map fun _ _ hsame => (Prod.mk.inj hsame).2, hrest, ?_⟩
        rintro ⟨index, pieces⟩ hfirst other hother rfl
        obtain ⟨_, _, hindex⟩ := List.mem_map.mp hfirst
        obtain ⟨place, _, hplace, _⟩ := (hmore _ _).mp hother
        have := (Prod.mk.inj hindex).1
        omega
      · intro index pieces
        rw [List.mem_append, hmore]
        constructor
        · rintro (hfirst | ⟨place, choice, hplace, hchoice⟩)
          · obtain ⟨_, hpieces, hsame⟩ := List.mem_map.mp hfirst
            obtain ⟨rfl, rfl⟩ := Prod.mk.inj hsame
            exact ⟨0, _, rfl, rfl, (hmem _).mp hpieces⟩
          · exact ⟨place + 1, choice, by omega, hchoice⟩
        · rintro ⟨place, choice, hplace, hchoice, hexpands⟩
          cases place with
          | zero =>
              obtain rfl : _ = choice := Option.some.inj hchoice
              exact .inl (List.mem_map.mpr ⟨pieces, (hmem _).mpr hexpands, by rw [hplace]; rfl⟩)
          | succ place => exact .inr ⟨place, choice, by omega, hchoice, hexpands⟩

theorem enumerates_expansions : ∀ parts : List (Part ω),
    grammar.LinksHold (fun index rule => grammar.Enumerates rule (follow index))
      (referencesOfParts parts) →
    (expansions follow parts).Nodup ∧
      ∀ pieces, pieces ∈ expansions follow parts ↔
        grammar.Expands parts pieces ∧ CompletePieces pieces
  | [], _ => by
      refine ⟨List.nodup_singleton _, fun pieces => ?_⟩
      rw [expansions, List.mem_singleton, expands_nil_iff]
      exact ⟨fun h => ⟨h, h ▸ trivial⟩, And.left⟩
  | .literal text :: rest, h => by
      obtain ⟨hrest, hmem⟩ := enumerates_expansions rest h
      exact ⟨hrest.map List.cons_injective, fun pieces =>
        mem_map_cons_iff _ _ _ (fun _ => expands_literal_iff text) (fun _ => .rfl) hmem⟩
  | .reference name none :: rest, h => by
      obtain ⟨hrest, hmem⟩ := enumerates_expansions rest h.tail
      exact ⟨hrest.map List.cons_injective, fun pieces =>
        mem_map_cons_iff _ _ _ (fun _ => expands_outside_iff name) (fun _ => .rfl) hmem⟩
  | .reference name (some index) :: rest, h => by
      obtain ⟨hrest, hmem⟩ := enumerates_expansions rest h.tail
      obtain ⟨rule, hrule, hall⟩ := h name index List.mem_cons_self
      exact ⟨nodup_expandWith _ _ hall.nodup hrest,
        fun pieces => mem_expandWith_iff _ rule _ _ hrule hall hmem⟩
  | .inline rule :: rest, h => by
      obtain ⟨hrest, hmem⟩ := enumerates_expansions rest h.right
      have hall := enumerates_derivations rule h.left
      exact ⟨nodup_expandWith _ _ hall.nodup hrest,
        fun pieces => mem_expandWith_iff _ rule _ _ rfl hall hmem⟩

end

-- All complete derivations of a rule, with those of the rules that it is
-- linked to.
def derivations (rule : Rule ω) : List (Derivation ω) :=
  rule.derivations (grammar.derivationsAt grammar.assignments.length)

variable {grammar}

theorem Reachable.enumerates [Weight ω] {start : Nat} (h : grammar.Reachable)
    (hstart : grammar.start = some start) (rule : Rule ω) (hrule : grammar.Below start rule) :
    grammar.Enumerates rule (grammar.derivations rule) := by
  refine grammar.enumerates_derivations _ rule
    (Below.linksHold _ (fun index hlinks => ?_) rule hrule)
  refine h.induction_on_links hstart
    (fun depth index rule => grammar.Enumerates rule (grammar.derivationsAt depth index)) ?_ index
    hlinks
  intro depth place linked hat _ hbelow
  simp only [derivationsAt, hat]
  exact grammar.enumerates_derivations _ linked hbelow

end Grammar

end PhraseGrammar
