import PhraseGrammar.Decimal.Numeral
import PhraseGrammar.Reading.Reader
import PhraseGrammar.Weight

namespace PhraseGrammar.Reading

def isNameCharacter (character : Char) : Bool :=
  character.isAlphanum || character == '_' || character == '.'

def readName : Reader String := do
  let name ← readWhile isNameCharacter
  if name.isEmpty then fail .nameExpected
  return String.ofList name

variable {ω : Type} [Weight ω]

def readNumeral (numeral : List Char) : Reader ω := do
  skip numeral.length
  match Decimal.readNumeral? numeral with
  | some (digits, places) => return Weight.ofDecimal digits places
  | none => fail (.numberExpected (String.ofList numeral))

-- The weight at the cursor, if there is one: digits, with at most one point
-- among them that may come first if a digit follows it, or last.
def readWeight : Reader (Option ω) := do
  let text ← remaining
  let whole := text.takeWhile Char.isDigit
  let fraction := (text.drop (whole.length + 1)).takeWhile Char.isDigit
  match whole, text.drop whole.length with
  | [], '.' :: _ =>
      if fraction.isEmpty then
        skip 1
        fail .digitExpected
      return some (← readNumeral ('.' :: fraction))
  | [], _ => return none
  | _, '.' :: _ => return some (← readNumeral (whole ++ '.' :: fraction))
  | _, _ => return some (← readNumeral whole)

-- The sign of an assignment; the answer is whether it equalizes the choices.
def readOperator : Reader Bool := do
  match ← remaining with
  | '=' :: _ =>
      skip 1
      return false
  | ':' :: '=' :: _ =>
      skip 2
      return true
  | ':' :: _ =>
      skip 1
      fail .equalsExpected
  | _ => fail .operatorExpected

end PhraseGrammar.Reading
