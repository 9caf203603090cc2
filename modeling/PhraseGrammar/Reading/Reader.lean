import PhraseGrammar.Diagnostic
import PhraseGrammar.Reading.Cursor

namespace PhraseGrammar.Reading

-- A failure is reported where the cursor stands, and reading is taken up
-- again from there.
structure Failure where
  cause : Cause
  cursor : Cursor
  deriving DecidableEq, Repr

def Failure.report (failure : Failure) : Diagnostic :=
  .unreadable failure.cursor.position.line failure.cursor.position.column failure.cause

-- A reader takes something from the text at the cursor and moves past it.
abbrev Reader := StateT Cursor (Except Failure)

def fail {α : Type} (cause : Cause) : Reader α :=
  fun cursor => .error ⟨cause, cursor⟩

def remaining : Reader (List Char) :=
  fun cursor => .ok (cursor.rest, cursor)

def skip (count : Nat) : Reader Unit :=
  fun cursor => .ok ((), cursor.forward count)

def readWhile (property : Char → Bool) : Reader (List Char) := do
  let run := (← remaining).takeWhile property
  skip run.length
  return run

end PhraseGrammar.Reading
