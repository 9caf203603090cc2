import PhraseGrammar.Character.Alphabetic
import PhraseGrammar.Character.Mark
import PhraseGrammar.Character.Number
import PhraseGrammar.Character.Set

namespace PhraseGrammar.Character

def alphabetic : CharacterSet := .ofPairs alphabeticRanges

def decimalDigits : CharacterSet := .ofPairs digitRanges

def alphanumeric : CharacterSet :=
  .ofPairs (alphabeticRanges ++ digitRanges ++ otherNumberRanges)

-- Punctuation that joins words, and the two characters that control joining.
def connectorRanges : List (Nat × Nat) := [
  (0x5F, 0x5F), (0x200C, 0x200D), (0x203F, 0x2040), (0x2054, 0x2054), (0xFE33, 0xFE34),
  (0xFE4D, 0xFE4F), (0xFF3F, 0xFF3F)]

-- The characters of words: letters, digits, marks and connectors.
def wordCharacters : CharacterSet :=
  .ofPairs (alphabeticRanges ++ digitRanges ++ markRanges ++ connectorRanges)

def spaces : CharacterSet := .ofPairs [
  (0x9, 0xD), (0x20, 0x20), (0x85, 0x85), (0xA0, 0xA0), (0x1680, 0x1680), (0x2000, 0x200A),
  (0x2028, 0x2029), (0x202F, 0x202F), (0x205F, 0x205F), (0x3000, 0x3000)]

def isAscii (character : Char) : Bool := character.toNat < 128

def isWord (character : Char) : Bool := wordCharacters.contains character

def isSpace (character : Char) : Bool := spaces.contains character

end PhraseGrammar.Character
