import PhraseGrammar.Character.Case
import PhraseGrammar.Regex.Escape
import PhraseGrammar.Regex.NamedSet

namespace PhraseGrammar.Regex

open PhraseGrammar.Character

-- A set as it is written, and how deep its parts are nested.
structure Bracket where
  set : CharacterSet
  depth : Nat

-- How a set operation combines the items on its left with those on its right.
abbrev SetOperation := CharacterSet → CharacterSet → CharacterSet

def setOperation? : List Char → Option SetOperation
  | '&' :: '&' :: _ => some CharacterSet.intersection
  | '-' :: '-' :: _ => some CharacterSet.difference
  | '~' :: '~' :: _ => some CharacterSet.symmetricDifference
  | _ => none

-- Reads a named set such as `[:alpha:]` or `[:^alpha:]`, if there is one. Case
-- is ignored before the set is negated.
def readNamedSet (flags : Flags) : Scanner (Option CharacterSet) := do
  match ← rest with
  | '[' :: ':' :: text =>
      let (negated, text) := match text with
        | '^' :: text => (true, text)
        | text => (false, text)
      let name := text.takeWhile (· != ':')
      match namedSet? (String.ofList name), text.drop name.length with
      | some set, ':' :: ']' :: _ =>
          drop (name.length + if negated then 5 else 4)
          return some ((set.ignoringCaseIf flags.ignoreCase).complementIf negated)
      | _, _ => return none
  | _ => return none

def readSetItem : Scanner (Char ⊕ CharacterSet) := do
  match ← rest with
  | [] => refuse "unclosed set"
  | '\\' :: _ =>
      drop 1
      match ← readEscape with
      | .literal character => return .inl character
      | .set set => return .inr set
      | .assertion _ => refuse "assertion in a set"
  | character :: _ =>
      drop 1
      return .inl character

def itemSet : Char ⊕ CharacterSet → CharacterSet
  | .inl character => CharacterSet.single character
  | .inr set => set

-- Does a hyphen here join two characters to a range? A hyphen before the
-- closing bracket is a character, and two are a set operation.
def joinsRange (flags : Flags) (text : List Char) : Bool :=
  match text with
  | '-' :: text =>
      let text := if flags.ignoreSpace then withoutComments text.length text else text
      text.head? != some ']' && text.head? != some '-'
  | _ => false

def readSetRange (flags : Flags) : Scanner CharacterSet := do
  let first ← readSetItem
  skipIgnored flags
  if (← rest).isEmpty then refuse "unclosed set"
  if joinsRange flags (← rest) then
    drop 1
    skipIgnored flags
    match first, ← readSetItem with
    | .inl first, .inl last =>
        if last < first then refuse "reversed range"
        return CharacterSet.range first last
    | _, _ => refuse "range without ends"
  else
    return itemSet first

-- The items of a set that have been read since the latest operation, how many
-- they are and how deep the deepest one is nested, and the operation that waits
-- for them with the set on its left.
structure SetDraft where
  items : CharacterSet
  count : Nat
  depth : Nat
  pending : Option (SetOperation × Bracket)

namespace SetDraft

def empty : SetDraft := ⟨CharacterSet.empty, 0, 0, none⟩

def add (draft : SetDraft) (set : CharacterSet) (depth : Nat) : SetDraft :=
  { draft with
    items := draft.items.union set
    count := draft.count + 1
    depth := max draft.depth depth }

-- Operations are carried out from the left, and take case into account.
def value (draft : SetDraft) (flags : Flags) : Bracket :=
  let right : Bracket := ⟨draft.items, draft.depth + if draft.count > 1 then 1 else 0⟩
  match draft.pending with
  | none => right
  | some (operation, left) =>
      ⟨operation (left.set.ignoringCaseIf flags.ignoreCase)
          (right.set.ignoringCaseIf flags.ignoreCase),
        max left.depth right.depth + 1⟩

def operate (draft : SetDraft) (flags : Flags) (operation : SetOperation) : SetDraft :=
  { empty with pending := some (operation, draft.value flags) }

end SetDraft

def readSetStart (flags : Flags) : (steps : Nat) → SetDraft → Scanner SetDraft
  | 0, draft => return draft
  | steps + 1, draft => do
      match ← rest with
      | '-' :: _ =>
          drop 1
          skipIgnored flags
          readSetStart flags steps (draft.add (CharacterSet.single '-') 0)
      | ']' :: _ =>
          if draft.count > 0 then return draft
          drop 1
          skipIgnored flags
          return draft.add (CharacterSet.single ']') 0
      | _ => return draft

def readSetItems (flags : Flags) (readInner : Scanner Bracket) :
    (steps : Nat) → SetDraft → Scanner SetDraft
  | 0, _ => refuse "unclosed set"
  | steps + 1, draft => do
      skipIgnored flags
      match ← rest with
      | [] => refuse "unclosed set"
      | ']' :: _ =>
          drop 1
          return draft
      | '[' :: _ =>
          match ← readNamedSet flags with
          | some set => readSetItems flags readInner steps (draft.add set 0)
          | none =>
              let inner ← readInner
              readSetItems flags readInner steps (draft.add inner.set inner.depth)
      | text =>
          match setOperation? text with
          | some operation =>
              drop 2
              readSetItems flags readInner steps (draft.operate flags operation)
          | none =>
              let set ← readSetRange flags
              readSetItems flags readInner steps (draft.add set 0)

-- Reads a set in brackets. Inner brackets are read one level deeper, so
-- `depth` need not exceed the number of characters.
def readBracket (flags : Flags) : (depth : Nat) → Scanner Bracket
  | 0 => refuse "unclosed set"
  | depth + 1 => do
      drop 1
      skipIgnored flags
      let negated := (← rest).head? == some '^'
      if negated then
        drop 1
        skipIgnored flags
      let start ← readSetStart flags (← rest).length SetDraft.empty
      let draft ← readSetItems flags (readBracket flags depth) (← rest).length start
      let value := draft.value flags
      return ⟨(value.set.ignoringCaseIf flags.ignoreCase).complementIf negated, value.depth + 1⟩

end PhraseGrammar.Regex
