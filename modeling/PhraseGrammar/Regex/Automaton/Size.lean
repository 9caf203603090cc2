import PhraseGrammar.Regex.Automaton.SetStates
import PhraseGrammar.Regex.Automaton.WordStates
import PhraseGrammar.Regex.Pattern

namespace PhraseGrammar.Regex

open PhraseGrammar.Character

-- A pattern is compiled to two automata over bytes. One reads a text forward
-- and records groups, the other one reads it backward.
inductive Direction where
  | forward
  | backward
  deriving DecidableEq, Repr

namespace Draft

def isAsciiSet (set : CharacterSet) : Bool := set.ranges.all fun range => range.last ≤ 0x7F

-- All forms lead to one state. When they are read backward there is a fork in
-- front of them.
def addForms (direction : Direction) (forms : List ByteForm) (draft : Draft) : Draft :=
  match direction with
  | .forward =>
      let sharing := Sharing.start draft.addState forwardPlaces
      (sharing.forward draft.states longestForm forms).2.draft.startPart
  | .backward =>
      let fork := draft.addState
      let sharing := Sharing.start fork.addState backwardPlaces
      (sharing.backward fork.states forms).draft.startPart

def addSet (direction : Direction) (set : CharacterSet) (draft : Draft) : Draft :=
  if isAsciiSet set then draft.addState.addTable set.ranges.length
  else draft.addForms direction (set.ranges.flatMap byteForms)

-- Builds a part so many times, or a state if there are none.
def addCopies (build : Draft → Draft) (count : Nat) (draft : Draft) : Draft :=
  if count = 0 then draft.addState else addTimes build count draft.startPart

-- A fork leads to the part and past it.
def addOption (build : Draft → Draft) (draft : Draft) : Draft :=
  let body := build draft.addState
  (body.addState.addBranches 2).connect body.forked

-- Any number of repetitions. What can match the empty text is repeated at least
-- once, and that is an option.
def addLoop (build : Draft → Draft) (takesText : Bool) (draft : Draft) : Draft :=
  if takesText then
    let body := build draft.addState
    ((body.addBranches 1).connect body.forked).endInFork
  else
    let body := build draft
    ((body.addStates 3).addBranches 4).connect body.forked

-- So many repetitions or more, where there is at least one. A fork after the
-- last one leads back to it.
def addAtLeast (build : Draft → Draft) (least : Nat) (draft : Draft) : Draft :=
  let others := if least = 1 then draft.startPart else addCopies build (least - 1) draft
  let last := build others
  (((last.addState.connect others.forked).connect last.forked).addBranches 1).endInFork

-- The repetitions that there have to be, and those that may be left out.
def addBounded (build : Draft → Draft) (least most : Nat) (draft : Draft) : Draft :=
  let copies := addCopies build least draft
  if most ≤ least then copies
  else
    let options := addOptions build (most - least)
      { copies.addState with forked := copies.forked }
    (options.connect options.forked).startPart

end Draft

def texts? (branches : List Pattern) : Option (List (List Char)) :=
  branches.mapM fun
    | .literal text => some text
    | _ => none

def textBytes (text : List Char) : Word := text.flatMap fun c => utf8Bytes c.toNat

def wordOf (direction : Direction) (text : List Char) : Word :=
  match direction with
  | .forward => textBytes text
  | .backward => (textBytes text).reverse

mutual

def Pattern.build (direction : Direction) : Pattern → Draft → Draft
  | .empty, draft => draft.addState
  | .literal text, draft => draft.addStates (textBytes text).length
  | .oneOf set, draft => draft.addSet direction set
  | .require _, draft => draft.addState
  | .sequence items, draft =>
      match direction with
      | .forward => buildInOrder items draft.startPart
      | .backward => buildInReverse items draft.startPart
  | .alternatives branches, draft =>
      match texts? branches with
      | some texts =>
          let words := texts.map (wordOf direction)
          let length := (words.map List.length).foldl max 0
          addWords length words draft.addState
      | none => buildBranches direction branches draft
  | .group _ body, draft =>
      match direction with
      | .forward =>
          let inner := body.build direction draft.addState
          inner.addState.connect inner.forked
      | .backward => body.build direction draft
  | .repeated body least most _, draft =>
      let build := body.build direction
      match least, most with
      | 0, some 1 => draft.addOption build
      | 0, none => draft.addLoop build (body.leastLength?.any (0 < ·))
      | least, none => draft.addAtLeast build least
      | least, some most => draft.addBounded build least most

def buildInOrder : List Pattern → Draft → Draft
  | [], draft => draft
  | first :: rest, draft =>
      buildInOrder rest ((first.build .forward draft).connect draft.forked)

def buildInReverse : List Pattern → Draft → Draft
  | [], draft => draft
  | first :: rest, draft =>
      let draft := buildInReverse rest draft
      (first.build .backward draft).connect draft.forked

-- The fork between the branches and the state at which they meet come after
-- the second branch.
def buildBranches (direction : Direction) : List Pattern → Draft → Draft
  | [], draft => draft
  | [only], draft => only.build direction draft
  | first :: second :: rest, draft =>
      let one := first.build direction draft
      let two := second.build direction one
      let fork := (((two.addStates 2).addBranches 2).connect one.forked).connect two.forked
      buildOthers direction rest fork

def buildOthers (direction : Direction) : List Pattern → Draft → Draft
  | [], draft => draft
  | first :: rest, draft =>
      let branch := first.build direction draft
      buildOthers direction rest ((branch.addBranches 1).connect branch.forked).startPart

end

-- A match may start anywhere in a text unless the pattern holds only at the end
-- that is read first. Then the automaton starts with a loop over any bytes.
def Pattern.automaton (direction : Direction) (pattern : Pattern) : Draft :=
  let anchored := match direction with
    | .forward => pattern.startsText
    | .backward => pattern.endsText
  let start := if anchored then Draft.empty.addState
    else ((Draft.empty.addStates 2).addTable 1).addBranches 2
  let body := (Pattern.group 0 pattern).build direction start
  body.addState.connect body.forked

def Pattern.fits (pattern : Pattern) : Bool :=
  (pattern.automaton .forward).bytes ≤ sizeLimit &&
    (pattern.automaton .backward).bytes ≤ sizeLimit

end PhraseGrammar.Regex
