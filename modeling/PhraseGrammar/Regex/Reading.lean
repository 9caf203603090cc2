import PhraseGrammar.Regex.Bracket
import PhraseGrammar.Regex.Combination
import PhraseGrammar.Regex.Group
import PhraseGrammar.Regex.Repetition

namespace PhraseGrammar.Regex

open PhraseGrammar.Character

structure Piece where
  pattern : Pattern
  depth : Nat

def nestingLimit : Nat := 250

-- The branches of a group that have been read, and the items of the next one,
-- the latest first. Where flags have been set there is no item to repeat.
structure Body where
  branches : List Piece
  items : List (Option Piece)

namespace Body

def empty : Body := ⟨[], []⟩

def add (body : Body) (piece : Piece) : Body :=
  { body with items := some piece :: body.items }

def deepest (pieces : List Piece) : Nat :=
  pieces.foldl (fun depth piece => max depth piece.depth) 0

def branch (body : Body) : Piece :=
  let pieces := body.items.reverse.filterMap id
  ⟨Pattern.concatenate (pieces.map Piece.pattern),
    deepest pieces + if body.items.length > 1 then 1 else 0⟩

def bar (body : Body) : Body := ⟨body.branches ++ [body.branch], []⟩

def finish (body : Body) : Piece :=
  let pieces := body.bar.branches
  ⟨Pattern.choose (pieces.map Piece.pattern),
    deepest pieces + if pieces.length > 1 then 1 else 0⟩

end Body

def literalPattern (flags : Flags) (character : Char) : Pattern :=
  .ofSet ((CharacterSet.single character).ignoringCaseIf flags.ignoreCase)

def lineEnds (flags : Flags) : CharacterSet :=
  if flags.carriageReturns then (CharacterSet.single '\n').union (CharacterSet.single '\r')
  else CharacterSet.single '\n'

def dotSet (flags : Flags) : CharacterSet :=
  if flags.dotAll then CharacterSet.all else (lineEnds flags).complement

def startAssertion (flags : Flags) : Assertion :=
  if !flags.multiLine then .textStart
  else if flags.carriageReturns then .returnLineStart
  else .lineStart

def endAssertion (flags : Flags) : Assertion :=
  if !flags.multiLine then .textEnd
  else if flags.carriageReturns then .returnLineEnd
  else .lineEnd

def escapePattern (flags : Flags) : Escape → Pattern
  | .literal character => literalPattern flags character
  | .set set => .ofSet set
  | .assertion assertion => .require assertion

def readPrimitive (flags : Flags) : Scanner Piece := do
  match ← rest with
  | '[' :: text =>
      let bracket ← readBracket flags text.length
      return ⟨.ofSet bracket.set, bracket.depth⟩
  | '\\' :: _ =>
      drop 1
      return ⟨escapePattern flags (← readEscape), 0⟩
  | '.' :: _ =>
      drop 1
      return ⟨.oneOf (dotSet flags), 0⟩
  | '^' :: _ =>
      drop 1
      return ⟨.require (startAssertion flags), 0⟩
  | '$' :: _ =>
      drop 1
      return ⟨.require (endAssertion flags), 0⟩
  | character :: _ =>
      drop 1
      return ⟨literalPattern flags character, 0⟩
  | [] => refuse "end of pattern"

def repeatLatest (flags : Flags) (count : Count) (body : Body) : Scanner Body := do
  match body.items with
  | some piece :: items =>
      let greedy ← readGreed flags
      let pattern := piece.pattern.repetition count.least count.most greedy
      return { body with items := some ⟨pattern, piece.depth + 1⟩ :: items }
  | _ => refuse "nothing to repeat"

-- Reads branches up to the parenthesis that closes the group or to the end.
-- Each step takes something, so there are no more steps than characters.
def readBranches (readGroup : Flags → Scanner Piece) :
    (steps : Nat) → Flags → Body → Scanner Body
  | 0, _, body => return body
  | steps + 1, flags, body => do
      skipIgnored flags
      match ← rest with
      | [] | ')' :: _ => return body
      | '|' :: _ =>
          drop 1
          readBranches readGroup steps flags body.bar
      | '(' :: _ =>
          drop 1
          match ← readOpening flags with
          | .flags flags =>
              readBranches readGroup steps flags { body with items := none :: body.items }
          | .plain inner =>
              let piece ← readGroup inner
              readBranches readGroup steps flags (body.add { piece with depth := piece.depth + 1 })
          | .capture index =>
              let piece ← readGroup flags
              readBranches readGroup steps flags
                (body.add ⟨.group index piece.pattern, piece.depth + 1⟩)
      | _ =>
          match ← readRepetition flags with
          | some count =>
              readBranches readGroup steps flags (← repeatLatest flags count body)
          | none =>
              readBranches readGroup steps flags (body.add (← readPrimitive flags))

-- Reads a group after its opening, up to the parenthesis that closes it. Inner
-- groups are read one level deeper, so `depth` need not exceed the number of
-- characters.
def readGroup : (depth : Nat) → Flags → Scanner Piece
  | 0, _ => refuse "unclosed group"
  | depth + 1, flags => do
      let body ← readBranches (readGroup depth) (← rest).length flags Body.empty
      if (← rest).isEmpty then refuse "unclosed group"
      drop 1
      return body.finish

def readWhole : Scanner Pattern := do
  let length := (← rest).length
  let body ← readBranches (readGroup length) length Flags.initial Body.empty
  if !(← rest).isEmpty then refuse "unopened group"
  let piece := body.finish
  if piece.depth > nestingLimit then refuse "nested too deep"
  return piece.pattern

-- Reads a pattern, with the number of its groups and the names of those that
-- have one.
def readPattern (text : List Char) : Except String (Pattern × Scan) :=
  readWhole.run ⟨text, 0, []⟩

end PhraseGrammar.Regex
