import PhraseGrammar.Bisection
import PhraseGrammar.Grammar.Binding
import PhraseGrammar.Grammar.Generation

namespace PhraseGrammar

-- The next identity to be given out. All ensembles take theirs from one
-- supply, so no identity names two additions.
structure IdentitySupply where
  next : Nat
  deriving DecidableEq, Repr

def IdentitySupply.first : IdentitySupply := ⟨1⟩

def IdentitySupply.rest (supply : IdentitySupply) : IdentitySupply := ⟨supply.next + 1⟩

-- A grammar with its identity. They come and go together.
structure Member (ω : Type) where
  identity : Nat
  grammar : Grammar ω

-- Bound grammars, one of which is selected for each phrase in proportion to
-- its weight. `table` holds the running totals of the weights. With
-- `equalized` every choice inside a grammar has the same chance.
structure Ensemble (ω : Type) where
  members : List (Member ω)
  table : List ω
  equalized : Bool

namespace Ensemble

variable {ω : Type}

def empty : Ensemble ω := ⟨[], [], false⟩

def identities (ensemble : Ensemble ω) : List Nat :=
  ensemble.members.map Member.identity

-- The place of an identity, if it is held.
def placeOf? (ensemble : Ensemble ω) (identity : Nat) : Option Nat :=
  let identities := ensemble.identities
  let place := bisect (identity < ·) identities identities.length 0 identities.length
  if identities[place]? = some identity then some place else none

def combinations (ensemble : Ensemble ω) : Nat :=
  totalCombinations (ensemble.members.map fun member => member.grammar.combinations)

variable [Weight ω]

def weight (ensemble : Ensemble ω) : ω := lastTotal ensemble.table

-- Binds a grammar to a start name and holds it under the next identity. A
-- grammar that cannot be bound is refused with the reports, and no identity
-- is used up.
def add (ensemble : Ensemble ω) (grammar : Grammar ω) (start : String)
    (supply : IdentitySupply) :
    Except (List Diagnostic) Nat × Ensemble ω × IdentitySupply :=
  let (grammar, reports) := grammar.bind start
  if reports.isEmpty then
    (.ok supply.next,
      { ensemble with
        members := ensemble.members ++ [⟨supply.next, grammar⟩]
        table := ensemble.table ++ [ensemble.weight + grammar.weight] },
      supply.rest)
  else
    (.error reports, ensemble, supply)

-- Drops the grammar with an identity and totals anew from its place on. The
-- answer is whether there was one.
def remove (ensemble : Ensemble ω) (identity : Nat) : Bool × Ensemble ω :=
  match ensemble.placeOf? identity with
  | none => (false, ensemble)
  | some index =>
      let members := ensemble.members.eraseIdx index
      let kept := ensemble.table.take index
      let weights := (members.drop index).map fun member => member.grammar.weight
      (true, { ensemble with
        members := members
        table := kept ++ runningTotalsFrom (lastTotal kept) weights })

def generate (ensemble : Ensemble ω) (context : Context) : Generation ω String := do
  match ← Generation.select ensemble.table false with
  | none => return nilPhrase
  | some index =>
      match ensemble.members[index]? with
      | none => throw (.missingChoice index)
      | some member => member.grammar.generate context ensemble.equalized

end Ensemble

end PhraseGrammar
