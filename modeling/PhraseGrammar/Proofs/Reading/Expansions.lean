import PhraseGrammar.Proofs.Reading.RuleExtension
import PhraseGrammar.Proofs.Reading.Texts

namespace PhraseGrammar.Reading

variable {ω : Type}

-- What braces add to a draft: nothing but characters, or a part.
inductive Addition (ω : Type) where
  | characters (text : List Char)
  | part (part : Part ω)

def Draft.include (draft : Draft ω) : Addition ω → Draft ω
  | .characters text => draft.add text
  | .part part => draft.push part

theorem exists_addGroup (body : List Char) :
    ∃ addition : Addition ω, ∀ draft : Draft ω, draft.addGroup body = draft.include addition := by
  unfold Draft.addGroup
  split
  · exact ⟨.characters [], fun draft => (add_nil draft).symm⟩
  · split
    · exact ⟨.part _, fun _ => rfl⟩
    · exact ⟨.characters body, fun _ => rfl⟩

@[simp] theorem fixedWeight_finish (draft : Draft ω) :
    draft.finish.fixedWeight = draft.choice.fixedWeight := by
  unfold Draft.finish Choice.pushLiteral
  split <;> rfl

@[simp] theorem fixedWeight_include (draft : Draft ω) (addition : Addition ω) :
    (draft.include addition).choice.fixedWeight = draft.choice.fixedWeight := by
  cases addition with
  | characters text => rfl
  | part part => exact fixedWeight_finish draft

theorem readInner_rule {inner : Reader (Rule ω)} {finish : Rule ω → Draft ω} {next : Draft ω}
    {cursor left : Cursor} (h : readInner inner finish cursor = .ok (next, left)) :
    ∃ rule, ∀ other, readInner inner other cursor = .ok (other rule, left) := by
  obtain ⟨_, middle, hblanks, hinner⟩ := bind_eq_ok h
  obtain ⟨rule, left, hrule, ⟨⟩⟩ := bind_eq_ok hinner
  exact ⟨rule, fun _ => (bind_of_ok hblanks).trans (bind_of_ok hrule)⟩

-- Braces are read alike into every draft.
theorem readBraces_include {inner : Reader (Rule ω)} {draft next : Draft ω} {cursor left : Cursor}
    (h : readBraces inner draft cursor = .ok (next, left)) :
    ∃ addition : Addition ω, ∀ other,
      readBraces inner other cursor = .ok (other.include addition, left) := by
  simp only [readBraces, bind_of_ok (rfl : remaining cursor = .ok (cursor.rest, cursor))] at h ⊢
  generalize cursor.rest.drop 1 = inside at h ⊢
  split at h
  · cases h
    exact ⟨.characters ['{'], fun _ => rfl⟩
  · cases h
    exact ⟨.characters ['}'], fun _ => rfl⟩
  · obtain ⟨_, middle, hskip, hinner⟩ := bind_eq_ok h
    obtain ⟨rule, hrule⟩ := readInner_rule hinner
    exact ⟨.part (.inline rule), fun _ => (bind_of_ok hskip).trans (hrule _)⟩
  · obtain ⟨_, middle, hskip, hinner⟩ := bind_eq_ok h
    obtain ⟨rule, hrule⟩ := readInner_rule hinner
    exact ⟨.part (.inline { rule with equalized := true }),
      fun _ => (bind_of_ok hskip).trans (hrule _)⟩
  · split at h
    · exact nomatch h
    next hclosed =>
      cases h
      obtain ⟨addition, haddition⟩ := exists_addGroup (ω := ω) (inside.takeWhile (· != '}'))
      refine ⟨addition, fun other => ?_⟩
      rw [if_neg hclosed, ← haddition]
      rfl

variable (ω) [Weight ω] (compile : Compiler)

-- An expansion that is complete: read by itself, it is read up to its end. A
-- comment is none.
structure Expansion where
  inside : List Char
  hcomment : inside.head? ≠ some '*'
  hcomplete : ∃ draft after, readBraces (readInline compile inside.length) (Draft.empty : Draft ω)
    ⟨'{' :: inside, Position.start⟩ = .ok (draft, ⟨[], after⟩)

variable {ω compile}

namespace Expansion

def text (expansion : Expansion ω compile) : List Char := '{' :: expansion.inside

-- What is made of a draft when the expansion is read by itself.
def addTo (expansion : Expansion ω compile) (draft : Draft ω) : Draft ω :=
  match readBraces (readInline compile expansion.inside.length) draft
      ⟨expansion.text, Position.start⟩ with
  | .ok (next, _) => next
  | .error _ => draft

variable (expansion : Expansion ω compile)

theorem inside_ne_nil : expansion.inside ≠ [] := by
  obtain ⟨inside, _, draft, after, hcomplete⟩ := expansion
  rintro rfl
  exact nomatch hcomplete

theorem exists_addition : ∃ addition after, ∀ draft,
    expansion.addTo draft = draft.include addition ∧
      readBraces (readInline compile expansion.inside.length) draft
        ⟨expansion.text, Position.start⟩ = .ok (draft.include addition, ⟨[], after⟩) := by
  obtain ⟨draft, after, hcomplete⟩ := expansion.hcomplete
  obtain ⟨addition, haddition⟩ := readBraces_include hcomplete
  refine ⟨addition, after, fun other => ⟨?_, haddition other⟩⟩
  rw [addTo, text, haddition other]

@[simp] theorem fixedWeight_addTo (draft : Draft ω) :
    (expansion.addTo draft).choice.fixedWeight = draft.choice.fixedWeight := by
  obtain ⟨addition, after, haddition⟩ := expansion.exists_addition
  rw [(haddition draft).1, fixedWeight_include]

-- Wherever an expansion stands, and whatever follows it, it is read as it is
-- by itself.
theorem reads (depth : Nat) (hdepth : expansion.inside.length ≤ depth) (draft : Draft ω)
    (rest : List Char) :
    Reads (readBraces (readInline compile depth) draft) (expansion.text ++ rest)
      (expansion.addTo draft) rest := by
  obtain ⟨addition, after, haddition⟩ := expansion.exists_addition
  obtain ⟨hadd, hread⟩ := haddition draft
  have hextends : Extends rest Anything (readBraces (readInline compile _) draft)
      (readBraces (readInline compile depth) draft) :=
    extends_readInlineBraces compile _ depth hdepth draft
  have hadvances : Advances (readBraces (readInline compile depth) draft) :=
    advances_readBraces (advances_readInline compile depth (advances_readRule compile depth)) draft
  rw [hadd]
  exact hadvances.reads ((hextends _ _ _ hread).2 trivial)

end Expansion

end PhraseGrammar.Reading
