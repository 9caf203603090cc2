import PhraseGrammar.Character.Class

namespace PhraseGrammar.Regex

open PhraseGrammar.Character

-- A condition on the place between two characters.
inductive Assertion where
  | textStart
  | textEnd
  | lineStart
  | lineEnd
  | returnLineStart
  | returnLineEnd
  | wordBoundary
  | noWordBoundary
  | wordStart
  | wordEnd
  | wordStartHalf
  | wordEndHalf
  deriving DecidableEq, Repr

-- Does the assertion hold between these two characters? There is none before
-- the start and after the end of a text. With carriage returns a line also ends
-- before one that stands alone or in front of a line feed.
def Assertion.holds (before after : Option Char) : Assertion → Bool
  | textStart => before.isNone
  | textEnd => after.isNone
  | lineStart => before.isNone || before == some '\n'
  | lineEnd => after.isNone || after == some '\n'
  | returnLineStart =>
      before.isNone || before == some '\n' || (before == some '\r' && after != some '\n')
  | returnLineEnd =>
      after.isNone || after == some '\r' || (after == some '\n' && before != some '\r')
  | wordBoundary => before.any isWord != after.any isWord
  | noWordBoundary => before.any isWord == after.any isWord
  | wordStart => !before.any isWord && after.any isWord
  | wordEnd => before.any isWord && !after.any isWord
  | wordStartHalf => !before.any isWord
  | wordEndHalf => !after.any isWord

end PhraseGrammar.Regex
