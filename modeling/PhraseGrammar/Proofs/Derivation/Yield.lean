import PhraseGrammar.Proofs.Derivation.Basic
import PhraseGrammar.Proofs.Generation.Ending

namespace PhraseGrammar

variable {ω : Type}

mutual

-- The text of a derivation. The pieces follow one another, and the whole goes
-- through the substitutions of the rule. A name that is left to the context
-- and not found there stands for itself.
def Derivation.yield (context : Context) : Derivation ω → Except String String
  | .nothing rule => applyAll rule.substitutions ""
  | .choice rule _ pieces => do applyAll rule.substitutions (← yieldOfPieces context pieces)

def yieldOfPieces (context : Context) : List (Piece ω) → Except String String
  | [] => return ""
  | .literal text :: rest => return text ++ (← yieldOfPieces context rest)
  | .outside name :: rest => return (context name).getD name ++ (← yieldOfPieces context rest)
  | .derived derivation :: rest =>
      return (← derivation.yield context) ++ (← yieldOfPieces context rest)

end

-- The choices that are between two alternatives or more.
def realChoices (points : List (Rule ω × Nat)) : List (Rule ω × Nat) :=
  points.filter fun point => 2 ≤ point.1.choices.length

@[simp] theorem realChoices_append (left right : List (Rule ω × Nat)) :
    realChoices (left ++ right) = realChoices left ++ realChoices right :=
  List.filter_append _ _

namespace Source

-- The source after a count of draws.
def skip (source : Source ω) (count : Nat) : Source ω :=
  { source with drawn := source.drawn + count }

@[simp] theorem skip_skip (source : Source ω) (m n : Nat) :
    (source.skip m).skip n = source.skip (m + n) := by
  rw [skip, skip, skip, Nat.add_assoc]

variable [Weight ω]

-- Each real choice is the one that the next number of the source falls on.
def Decides (source : Source ω) (equalizeAll : Bool) (points : List (Rule ω × Nat)) : Prop :=
  ∀ place point, (realChoices points)[place]? = some point →
    point.2 = entryAt point.1.table (point.1.equalized || equalizeAll)
      (source.stream (source.drawn + place))

theorem decides_nil (source : Source ω) (equalizeAll : Bool) : source.Decides equalizeAll [] :=
  fun _ _ h => by simp [realChoices] at h

@[simp] theorem decides_append (source : Source ω) (equalizeAll : Bool)
    (left right : List (Rule ω × Nat)) :
    source.Decides equalizeAll (left ++ right) ↔
      source.Decides equalizeAll left ∧
        (source.skip (realChoices left).length).Decides equalizeAll right := by
  simp only [Decides, realChoices_append, skip]
  constructor
  · intro h
    refine ⟨fun place point hpoint => h place point ?_, fun place point hpoint => ?_⟩
    · rwa [List.getElem?_append_left (List.getElem?_eq_some_iff.mp hpoint).1]
    · rw [Nat.add_assoc]
      refine h _ point ?_
      rwa [List.getElem?_append_right (Nat.le_add_right _ _), Nat.add_sub_cancel_left]
  · rintro ⟨hleft, hright⟩ place point hpoint
    rcases Nat.lt_or_ge place (realChoices left).length with hlt | hge
    · rw [List.getElem?_append_left hlt] at hpoint
      exact hleft place point hpoint
    · rw [List.getElem?_append_right hge] at hpoint
      have h := hright _ point hpoint
      rwa [Nat.add_assoc, Nat.add_sub_cancel' hge] at h

theorem decides_singleton_iff (source : Source ω) (equalizeAll : Bool) (rule : Rule ω)
    (index : Nat) :
    source.Decides equalizeAll [(rule, index)] ↔ (2 ≤ rule.choices.length →
      index = entryAt rule.table (rule.equalized || equalizeAll) (source.stream source.drawn)) := by
  by_cases hreal : 2 ≤ rule.choices.length
  · have hlist : realChoices [(rule, index)] = [(rule, index)] := by simp [realChoices, hreal]
    simp [Decides, hlist, List.getElem?_singleton, hreal, eq_comm]
  · have hlist : realChoices [(rule, index)] = [] := by simp [realChoices, hreal]
    simp [Decides, hlist, hreal]

-- A number is drawn for a real choice only.
theorem decides_selectEntry (source after : Source ω) (equalizeAll : Bool) (rule : Rule ω)
    (hfits : rule.table.length = rule.choices.length) (index : Nat)
    (h : selectEntry rule.table (rule.equalized || equalizeAll) source = (some index, after)) :
    source.Decides equalizeAll [(rule, index)] ∧
      after = source.skip (realChoices [(rule, index)]).length := by
  rw [decides_singleton_iff]
  match htable : rule.table with
  | [] => simp [htable, selectEntry] at h
  | [_] =>
      have hlist : realChoices [(rule, index)] = [] := by simp [realChoices, ← hfits, htable]
      rw [htable] at h
      obtain ⟨_, rfl⟩ := Prod.mk.inj h
      exact ⟨fun hreal => by simp [← hfits, htable] at hreal, by rw [hlist]; rfl⟩
  | first :: second :: rest =>
      have hlist : realChoices [(rule, index)] = [(rule, index)] := by
        simp [realChoices, ← hfits, htable]
      rw [htable] at h
      obtain ⟨hindex, rfl⟩ := Prod.mk.inj h
      exact ⟨fun _ => (Option.some.inj hindex).symm, by rw [hlist]; rfl⟩

end Source

section Delivers

-- What a generation comes to from a source: the text after the given number of
-- draws, or the failure of a transform before there are more.
def Delivers (source : Source ω) (draws : Nat) (text : Except String String)
    (outcome : Except Abort String × Source ω) : Prop :=
  match text with
  | .ok phrase => outcome = (.ok phrase, source.skip draws)
  | .error message =>
      ∃ count ≤ draws, outcome = (.error (.failedTransform message), source.skip count)

variable {source : Source ω} {draws : Nat} {text : Except String String}
  {outcome : Except Abort String × Source ω}

theorem Delivers.of_skip (before : Nat) (h : Delivers (source.skip before) draws text outcome) :
    Delivers source (before + draws) text outcome := by
  cases text with
  | ok phrase => exact h.trans (by simp)
  | error message =>
      obtain ⟨count, hcount, rfl⟩ := h
      exact ⟨before + count, Nat.add_le_add_left hcount before, by simp⟩

theorem Delivers.eq_ok (h : Delivers source draws text outcome) (phrase : String)
    (hphrase : outcome.1 = .ok phrase) : text = .ok phrase := by
  cases text with
  | ok output =>
      have hrun : outcome = (.ok output, source.skip draws) := h
      rw [hrun] at hphrase
      exact congrArg _ (Except.ok.inj hphrase)
  | error message =>
      obtain ⟨_, _, rfl⟩ := h
      cases hphrase

theorem delivers_transform (transforms : List Transform) (phrase : String) :
    Delivers source 0 (applyAll transforms phrase)
      (Generation.transform transforms phrase source) := by
  unfold Generation.transform
  cases applyAll transforms phrase with
  | ok output => rfl
  | error message => exact ⟨0, Nat.le_refl _, rfl⟩

theorem Delivers.transform (generation : Generation ω String)
    (h : Delivers source draws text (generation source)) (transforms : List Transform) :
    Delivers source draws (text >>= applyAll transforms)
      ((generation >>= Generation.transform transforms) source) := by
  rw [Generation.bind_apply]
  cases text with
  | ok phrase =>
      have hrun : generation source = (.ok phrase, source.skip draws) := h
      rw [hrun]
      exact Delivers.of_skip draws (delivers_transform transforms phrase)
  | error message =>
      obtain ⟨count, hcount, hrun⟩ := h
      rw [hrun]
      exact ⟨count, hcount, rfl⟩

-- A text that is there already takes no draws.
theorem Delivers.after (phrase : String) (generation : Generation ω String)
    (h : Delivers source draws text (generation source)) :
    Delivers source draws (do return phrase ++ (← text))
      ((do return phrase ++ (← generation) : Generation ω String) source) := by
  rw [Generation.bind_apply]
  cases text with
  | ok output =>
      have hrun : generation source = (.ok output, source.skip draws) := h
      rw [hrun]
      rfl
  | error message =>
      obtain ⟨count, hcount, hrun⟩ := h
      rw [hrun]
      exact ⟨count, hcount, rfl⟩

-- Texts are generated one after the other, and the second is not begun when
-- the first fails.
theorem Delivers.append (first second : Generation ω String)
    (h : Delivers source draws text (first source)) (more : Nat) (rest : Except String String)
    (hrest : Delivers (source.skip draws) more rest (second (source.skip draws))) :
    Delivers source (draws + more) (do return (← text) ++ (← rest))
      ((do return (← first) ++ (← second) : Generation ω String) source) := by
  rw [Generation.bind_apply]
  cases text with
  | ok phrase =>
      have hrun : first source = (.ok phrase, source.skip draws) := h
      rw [hrun]
      exact Delivers.of_skip draws (hrest.after phrase second)
  | error message =>
      obtain ⟨count, hcount, hrun⟩ := h
      rw [hrun]
      exact ⟨count, Nat.le_add_right_of_le hcount, rfl⟩

end Delivers

end PhraseGrammar
