namespace PhraseGrammar.Json

-- A scanner takes a piece of a JSON text, or finds that it is malformed.
abbrev Scanner := StateT (List Char) Option

def malformed {α : Type} : Scanner α := fun _ => none

def isBlank (character : Char) : Bool :=
  character == ' ' || character == '\n' || character == '\t' || character == '\r'

-- The next character that is not a blank. The cursor stays before it.
def peek : Scanner (Option Char) := do
  modify (List.dropWhile isBlank)
  return (← get).head?

def drop (count : Nat) : Scanner Unit := modify (List.drop count)

def expect (character : Char) : Scanner Unit := do
  if (← peek) == some character then drop 1 else malformed

def readWord (word : String) : Scanner Unit := do
  if word.toList.isPrefixOf (← get) then drop word.length else malformed

def hexValue? (digit : Char) : Option Nat :=
  if digit.isDigit then some (digit.toNat - '0'.toNat)
  else if 'a' ≤ digit && digit ≤ 'f' then some (digit.toNat - 'a'.toNat + 10)
  else if 'A' ≤ digit && digit ≤ 'F' then some (digit.toNat - 'A'.toNat + 10)
  else none

def readUnit : Scanner Nat := do
  match (← get).take 4 with
  | [a, b, c, d] =>
      drop 4
      match hexValue? a, hexValue? b, hexValue? c, hexValue? d with
      | some a, some b, some c, some d => return ((a * 16 + b) * 16 + c) * 16 + d
      | _, _, _, _ => malformed
  | _ => malformed

def isHighSurrogate (unit : Nat) : Bool := 0xD800 ≤ unit && unit < 0xDC00

def isLowSurrogate (unit : Nat) : Bool := 0xDC00 ≤ unit && unit < 0xE000

-- Reads the code unit after the first two characters of its escape, and a
-- second one if the first is half of a pair. A half alone is malformed.
def readUnicode : Scanner Char := do
  let unit ← readUnit
  if isLowSurrogate unit then malformed
  else if isHighSurrogate unit then
    readWord "\\u"
    let low ← readUnit
    if !isLowSurrogate low then malformed
    return Char.ofNat (0x10000 + (unit - 0xD800) * 0x400 + (low - 0xDC00))
  else
    return Char.ofNat unit

def simpleEscape? : Char → Option Char
  | '\"' => some '\"'
  | '\\' => some '\\'
  | '/' => some '/'
  | 'b' => some '\x08'
  | 'f' => some '\x0c'
  | 'n' => some '\n'
  | 'r' => some '\r'
  | 't' => some '\t'
  | _ => none

-- Reads the characters of a string and the quote that ends it. Control
-- characters have to be escaped. `readCode` reads a code point after the first
-- two characters of its escape.
def readCharacters (readCode : Scanner Char) : (steps : Nat) → List Char → Scanner (List Char)
  | 0, _ => malformed
  | steps + 1, characters => do
      match ← get with
      | '\"' :: _ =>
          drop 1
          return characters.reverse
      | '\\' :: 'u' :: _ =>
          drop 2
          let character ← readCode
          readCharacters readCode steps (character :: characters)
      | '\\' :: letter :: _ =>
          drop 2
          match simpleEscape? letter with
          | some character => readCharacters readCode steps (character :: characters)
          | none => malformed
      | character :: _ =>
          if character.toNat < 32 then malformed
          drop 1
          readCharacters readCode steps (character :: characters)
      | [] => malformed

def readString : Scanner String := do
  expect '\"'
  return String.ofList (← readCharacters readUnicode (← get).length [])

-- Passes over a string that nobody needs. Any code units will do.
def skipString : Scanner Unit := do
  expect '\"'
  let _ ← readCharacters (do let _ ← readUnit; return ' ') (← get).length []

def readDigits : Scanner (List Char) := do
  let digits := (← get).takeWhile Char.isDigit
  drop digits.length
  return digits

-- Reads the digits of a whole number, which starts with zero only if it is
-- zero.
def readWhole : Scanner (List Char) := do
  match ← readDigits with
  | [] => malformed
  | ['0'] => return ['0']
  | '0' :: _ => malformed
  | digits => return digits

def skipSomeDigits : Scanner Unit := do
  if (← readDigits).isEmpty then malformed

def skipNumber : Scanner Unit := do
  if (← get).head? == some '-' then drop 1
  let _ ← readWhole
  if (← get).head? == some '.' then
    drop 1
    skipSomeDigits
  if (← get).head? == some 'e' || (← get).head? == some 'E' then
    drop 1
    if (← get).head? == some '+' || (← get).head? == some '-' then drop 1
    skipSomeDigits

def skipItems (skipItem : Scanner Unit) (terminator : Char) : (steps : Nat) → Scanner Unit
  | 0 => malformed
  | steps + 1 => do
      skipItem
      match ← peek with
      | some ',' =>
          drop 1
          skipItems skipItem terminator steps
      | some character => if character = terminator then drop 1 else malformed
      | none => malformed

def skipList (skipItem : Scanner Unit) (terminator : Char) : Scanner Unit := do
  drop 1
  if (← peek) == some terminator then
    drop 1
  else
    skipItems skipItem terminator (← get).length

-- Passes over a value. Inner values are one level deeper, so `depth` need not
-- exceed the number of characters.
def skipValue : (depth : Nat) → Scanner Unit
  | 0 => malformed
  | depth + 1 => do
      match ← peek with
      | some '\"' => skipString
      | some 'n' => readWord "null"
      | some 't' => readWord "true"
      | some 'f' => readWord "false"
      | some '[' => skipList (skipValue depth) ']'
      | some '{' =>
          skipList (do skipString; expect ':'; skipValue depth) '}'
      | _ => skipNumber

def readBool : Scanner Bool := do
  match ← peek with
  | some 't' =>
      readWord "true"
      return true
  | some 'f' =>
      readWord "false"
      return false
  | _ => malformed

-- Reads a whole number below a limit. It has no sign, no fraction and no
-- exponent.
def readNatural (limit : Nat) : Scanner Nat := do
  let _ ← peek
  let digits ← readWhole
  let next := (← get).head?
  if next == some '.' || next == some 'e' || next == some 'E' then malformed
  let value := digits.foldl (fun value digit => 10 * value + (digit.toNat - '0'.toNat)) 0
  if value < limit then return value else malformed

def readOptional {α : Type} (read : Scanner α) : Scanner (Option α) := do
  if (← peek) == some 'n' then
    readWord "null"
    return none
  else
    return some (← read)

end PhraseGrammar.Json
