import PhraseGrammar.Regex.Assertion
import PhraseGrammar.Regex.Scanner

namespace PhraseGrammar.Regex

open PhraseGrammar.Character

-- What a backslash and the characters after it stand for.
inductive Escape where
  | literal (character : Char)
  | set (set : CharacterSet)
  | assertion (assertion : Assertion)

-- Any ASCII character that is not a letter, a digit or an angle bracket stands
-- for itself after a backslash.
def isEscapable (character : Char) : Bool :=
  isAscii character && !character.isAlphanum && character != '<' && character != '>'

def hexValue? (digit : Char) : Option Nat :=
  if digit.isDigit then some (digit.toNat - '0'.toNat)
  else if 'a' ≤ digit && digit ≤ 'f' then some (digit.toNat - 'a'.toNat + 10)
  else if 'A' ≤ digit && digit ≤ 'F' then some (digit.toNat - 'A'.toNat + 10)
  else none

def hexCharacter? (digits : List Char) : Option Char := do
  if digits.isEmpty then none
  let values ← digits.mapM hexValue?
  let code := values.foldl (fun code value => 16 * code + value) 0
  if code.isValidChar then some (Char.ofNat code) else none

-- Reads a code point: so many digits, or any number of them in braces.
def readCodePoint (length : Nat) : Scanner Char := do
  match ← rest with
  | '{' :: text =>
      let digits := text.takeWhile (· != '}')
      if digits.length = text.length then refuse "unclosed code point"
      drop (digits.length + 2)
      match hexCharacter? digits with
      | some character => return character
      | none => refuse "not a code point"
  | text =>
      if text.length < length then refuse "incomplete code point"
      drop length
      match hexCharacter? (text.take length) with
      | some character => return character
      | none => refuse "not a code point"

-- The special word boundaries have a name in braces. Other text in braces is a
-- count.
def readWordBoundary : Scanner Assertion := do
  match ← rest with
  | '{' :: text =>
      let name := text.takeWhile fun c => c.isAlpha || c == '-'
      if text.isEmpty then refuse "unclosed braces"
      if name.isEmpty then return .wordBoundary
      if text[name.length]? != some '}' then refuse "unclosed word boundary"
      drop (name.length + 2)
      match String.ofList name with
      | "start" => return .wordStart
      | "end" => return .wordEnd
      | "start-half" => return .wordStartHalf
      | "end-half" => return .wordEndHalf
      | _ => refuse "unknown word boundary"
  | _ => return .wordBoundary

def readEscape : Scanner Escape := do
  match ← rest with
  | [] => refuse "incomplete escape"
  | character :: _ =>
      drop 1
      if character.isDigit then refuse "back-reference"
      if isEscapable character then return .literal character
      match character with
      | 'x' => return .literal (← readCodePoint 2)
      | 'u' => return .literal (← readCodePoint 4)
      | 'U' => return .literal (← readCodePoint 8)
      | 'd' => return .set decimalDigits
      | 'D' => return .set decimalDigits.complement
      | 's' => return .set spaces
      | 'S' => return .set spaces.complement
      | 'w' => return .set wordCharacters
      | 'W' => return .set wordCharacters.complement
      | 'a' => return .literal '\x07'
      | 'f' => return .literal '\x0c'
      | 't' => return .literal '\t'
      | 'n' => return .literal '\n'
      | 'r' => return .literal '\r'
      | 'v' => return .literal '\x0b'
      | 'A' => return .assertion .textStart
      | 'z' => return .assertion .textEnd
      | 'b' => return .assertion (← readWordBoundary)
      | 'B' => return .assertion .noWordBoundary
      | '<' => return .assertion .wordStart
      | '>' => return .assertion .wordEnd
      | _ => refuse "unknown escape"

end PhraseGrammar.Regex
