import PhraseGrammar.Document
import PhraseGrammar.Ensemble
import PhraseGrammar.Random.Keystream
import PhraseGrammar.Settings

namespace PhraseGrammar

-- Generates phrases from the documents that have been added to it, with a
-- source of its own, and keeps what was found wrong with any document.
structure Generator (ω : Type) where
  ensemble : Ensemble ω
  diagnostics : List Diagnostic
  source : Source ω
  startSymbol : String

namespace Generator

variable {ω : Type}

def ofSource (source : Source ω) : Generator ω :=
  ⟨Ensemble.empty, [], source, defaultStart⟩

-- A generator without a seed draws from `entropy`.
def ofSettings (settings : Settings) (entropy : Source Float) : Generator Float where
  ensemble := { Ensemble.empty with equalized := settings.equalize }
  diagnostics := []
  source := (settings.seed.map Source.seeded).getD entropy
  startSymbol := settings.startSymbol

def withSource (generator : Generator ω) (source : Source ω) : Generator ω :=
  { generator with source := source }

def equalize (generator : Generator ω) (enable : Bool) : Generator ω :=
  { generator with ensemble := { generator.ensemble with equalized := enable } }

def clearDiagnostics (generator : Generator ω) : Generator ω :=
  { generator with diagnostics := [] }

-- Drops every document and every diagnostic.
def clear (generator : Generator ω) : Generator ω :=
  { generator with ensemble := Ensemble.empty, diagnostics := [] }

variable [Weight ω]

-- Adds a document bound to a start name. A document with diagnostics and one
-- that cannot be bound are refused, and what was found wrong is kept.
def addWithStart (generator : Generator ω) (document : Document ω) (start : String)
    (supply : IdentitySupply) :
    Except (List Diagnostic) Nat × Generator ω × IdentitySupply :=
  if document.hasErrors then
    (.error document.diagnostics,
      { generator with diagnostics := generator.diagnostics ++ document.diagnostics }, supply)
  else
    match generator.ensemble.add document.grammar start supply with
    | (.ok identity, ensemble, supply) =>
        (.ok identity, { generator with ensemble := ensemble }, supply)
    | (.error reports, ensemble, supply) =>
        (.error reports,
          { generator with
            ensemble := ensemble, diagnostics := generator.diagnostics ++ reports }, supply)

def add (generator : Generator ω) (document : Document ω) (supply : IdentitySupply) :
    Except (List Diagnostic) Nat × Generator ω × IdentitySupply :=
  generator.addWithStart document generator.startSymbol supply

-- Adds a document bound to a start name. What refuses it is the text of the
-- diagnostics past those that were there before.
def tryAddWithStart (generator : Generator ω) (document : Document ω) (start : String)
    (supply : IdentitySupply) : Except String Nat × Generator ω × IdentitySupply :=
  let before := generator.diagnostics.length
  match generator.addWithStart document start supply with
  | (.ok identity, generator, supply) => (.ok identity, generator, supply)
  | (.error _, generator, supply) =>
      (.error (joinedMessages (generator.diagnostics.drop before)), generator, supply)

def remove (generator : Generator ω) (identity : Nat) : Bool × Generator ω :=
  let (removed, ensemble) := generator.ensemble.remove identity
  (removed, { generator with ensemble := ensemble })

-- Generates a phrase. The source moves on, also when the generation fails.
def generate (generator : Generator ω) (context : Context) :
    Except Abort String × Generator ω :=
  let (outcome, source) := (generator.ensemble.generate context).run.run generator.source
  (outcome, { generator with source := source })

end Generator

end PhraseGrammar
