import PhraseGrammar.Reading.Reader

namespace PhraseGrammar.Reading

def isSpace (character : Char) : Bool := character == ' ' || character == '\t'

-- A comment runs from a brace followed by an asterisk to the next closing
-- brace. The answer is its length up to there and whether it is closed.
def commentExtent (text : List Char) : Nat × Bool :=
  let body := (text.drop 2).takeWhile (· != '}')
  if body.length + 2 < text.length then (body.length + 3, true) else (text.length, false)

def skipComment : Reader Unit := do
  let (length, closed) := commentExtent (← remaining)
  skip length
  if !closed then fail .openComment

-- The length of the run of blanks and comments that a text starts with, and
-- whether its last comment is closed. Newlines are blanks if `newlines`. The
-- first argument tells whether the text starts inside a comment.
def blankExtent (newlines : Bool) : Bool → List Char → Nat × Bool
  | inside, [] => (0, !inside)
  | true, character :: rest =>
      let (length, closed) := blankExtent newlines (character != '}') rest
      (length + 1, closed)
  | false, '{' :: '*' :: rest =>
      let (length, closed) := blankExtent newlines true rest
      (length + 2, closed)
  | false, character :: rest =>
      if isSpace character || (newlines && character == '\n') then
        let (length, closed) := blankExtent newlines false rest
        (length + 1, closed)
      else
        (0, true)

def skipBlanks (newlines : Bool) : Reader Unit := do
  let (length, closed) := blankExtent newlines false (← remaining)
  skip length
  if !closed then fail .openComment

-- Moves past blanks and comments on this line, and on the next one if this
-- one holds no more.
def skipToContinuation : Reader Unit := do
  skipBlanks false
  if (← remaining).head? == some '\n' then
    skip 1
    skipBlanks false

end PhraseGrammar.Reading
