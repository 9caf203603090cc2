import PhraseGrammar.Reading.Grammar

namespace PhraseGrammar

-- A grammar that has been read from one or more texts, with the diagnostics
-- of all of them. Local names stay private to the text that defines them.
structure Document (ω : Type) where
  grammar : Grammar ω
  diagnostics : List Diagnostic

namespace Document

variable {ω : Type}

def empty : Document ω := ⟨Grammar.empty, []⟩

def hasErrors (document : Document ω) : Bool := !document.diagnostics.isEmpty

def clearDiagnostics (document : Document ω) : Document ω :=
  { document with diagnostics := [] }

-- Takes over the assignments and the diagnostics of `other`. The answer is
-- whether no diagnostic has been added.
def merge (document other : Document ω) : Bool × Document ω :=
  let (grammar, reports) := document.grammar.merge other.grammar
  let added := other.diagnostics ++ reports
  (added.isEmpty, ⟨grammar, document.diagnostics ++ added⟩)

variable [Weight ω]

def read (compile : Compiler) (text : String) : Document ω :=
  let (grammar, diagnostics) := Reading.readGrammar compile text
  ⟨grammar, diagnostics⟩

def addText (document : Document ω) (compile : Compiler) (text : String) : Bool × Document ω :=
  document.merge (read compile text)

end Document

end PhraseGrammar
