namespace PhraseGrammar.Regex

-- An automaton under construction as far as its size goes: how many states it
-- has and how many bytes they take. States are numbered from zero on. `forked`
-- says whether the part that was built last ends in a fork.
structure Draft where
  states : Nat
  bytes : Nat
  forked : Bool
  deriving DecidableEq, Repr

-- Every state takes this many bytes, and its steps and branches take more.
def stateSize : Nat := 32

def stepSize : Nat := 8

def branchSize : Nat := 4

def sizeLimit : Nat := 10485760

namespace Draft

def empty : Draft := ⟨0, 0, false⟩

def addStates (draft : Draft) (count : Nat) : Draft :=
  ⟨draft.states + count, draft.bytes + count * stateSize, false⟩

def addState (draft : Draft) : Draft := draft.addStates 1

def addTable (draft : Draft) (steps : Nat) : Draft :=
  ⟨draft.states + 1, draft.bytes + stateSize + steps * stepSize, false⟩

def addBranches (draft : Draft) (count : Nat) : Draft :=
  { draft with bytes := draft.bytes + count * branchSize }

-- Leads the end of an earlier part somewhere. A fork takes a branch for it.
def connect (draft : Draft) (forked : Bool) : Draft :=
  if forked then draft.addBranches 1 else draft

-- The next part does not follow an earlier one.
def startPart (draft : Draft) : Draft := { draft with forked := false }

def endInFork (draft : Draft) : Draft := { draft with forked := true }

-- Builds a part so many times, each after the one before it. Beyond the limit
-- nothing is built.
def addTimes (build : Draft → Draft) : (count : Nat) → Draft → Draft
  | 0, draft => draft
  | count + 1, draft =>
      if draft.bytes > sizeLimit then draft
      else addTimes build count ((build draft).connect draft.forked)

-- Builds a part that may be left out so many times. `draft` ends where the
-- first of them starts.
def addOptions (build : Draft → Draft) : (count : Nat) → Draft → Draft
  | 0, draft => draft
  | count + 1, draft =>
      if draft.bytes > sizeLimit then draft
      else addOptions build count (((build draft.addState).connect draft.forked).addBranches 2)

end Draft

end PhraseGrammar.Regex
