import PhraseGrammar.Grammar.Inlining
import PhraseGrammar.Reading.Assignment

namespace PhraseGrammar.Reading

-- The length of the text to be passed over after a failure. It ends at the
-- first newline that does not continue the assignment. A newline after one of
-- the signs of continuation does, also with spaces in between. The first
-- argument tells whether such a sign comes before the text.
def failedExtent : Bool → List Char → Nat
  | _, [] => 0
  | continued, character :: rest =>
      if character = '\n' then
        if continued then failedExtent false rest + 1 else 0
      else if isSpace character then
        failedExtent continued rest + 1
      else
        failedExtent (character == '|' || character == '~' || character == '=') rest + 1

def Cursor.recover (cursor : Cursor) : Cursor :=
  cursor.forward (failedExtent false cursor.rest)

variable {ω : Type} [Weight ω]

-- What has been read so far: the assignments that could be read, and reports
-- of the others.
structure Progress (ω : Type) where
  grammar : Grammar ω
  reports : List Diagnostic

def readTurn (compile : Compiler) (progress : Progress ω) (cursor : Cursor) :
    Progress ω × Cursor :=
  match readInto compile progress.grammar cursor with
  | .ok (grammar, cursor) => ({ progress with grammar := grammar }, cursor)
  | .error failure =>
      ({ progress with reports := progress.reports ++ [failure.report] }, failure.cursor.recover)

-- Reads assignments up to the end of the text. Each turn moves the cursor on,
-- so there are no more turns than characters.
def readTurns (compile : Compiler) : (turns : Nat) → Progress ω → Cursor → Progress ω
  | 0, progress, _ => progress
  | turns + 1, progress, cursor =>
      if cursor.atEnd then progress
      else
        let (progress, cursor) := readTurn compile progress cursor
        readTurns compile turns progress cursor

def readAssignments (compile : Compiler) (text : List Char) : Progress ω :=
  readTurns compile text.length ⟨Grammar.empty, []⟩ (Cursor.ofText text)

def readGrammar (compile : Compiler) (text : String) : Grammar ω × List Diagnostic :=
  let progress := readAssignments compile text.toList
  let (grammar, reports) := progress.grammar.inlineLocals
  (grammar, progress.reports ++ reports)

end PhraseGrammar.Reading
