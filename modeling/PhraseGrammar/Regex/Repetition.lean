import PhraseGrammar.Regex.Scanner

namespace PhraseGrammar.Regex

structure Count where
  least : Nat
  most : Option Nat

def countLimit : Nat := UInt32.size

-- Reads a number with white space around it.
def readCount : Scanner Nat := do
  let text := (← rest).dropWhile Character.isSpace
  let digits := text.takeWhile Char.isDigit
  if digits.isEmpty then refuse "no count"
  let count := digits.foldl (fun count digit => 10 * count + (digit.toNat - '0'.toNat)) 0
  if count ≥ countLimit then refuse "count too large"
  modify fun scan =>
    { scan with rest := (text.drop digits.length).dropWhile Character.isSpace }
  return count

def readBracedCount (flags : Flags) : Scanner Count := do
  drop 1
  skipIgnored flags
  let least ← readCount
  let count ← do
    match ← rest with
    | ',' :: _ =>
        drop 1
        skipIgnored flags
        if (← rest).head? == some '}' then
          pure ⟨least, none⟩
        else
          let most ← readCount
          if most < least then refuse "reversed counts"
          pure ⟨least, some most⟩
    | _ => pure ⟨least, some least⟩
  if (← rest).head? != some '}' then refuse "unclosed count"
  drop 1
  return count

def readRepetition (flags : Flags) : Scanner (Option Count) := do
  match ← rest with
  | '?' :: _ =>
      drop 1
      return some ⟨0, some 1⟩
  | '*' :: _ =>
      drop 1
      return some ⟨0, none⟩
  | '+' :: _ =>
      drop 1
      return some ⟨1, none⟩
  | '{' :: _ => return some (← readBracedCount flags)
  | _ => return none

-- A question mark after a count makes it prefer fewer repetitions.
def readGreed (flags : Flags) : Scanner Bool := do
  skipIgnored flags
  if (← rest).head? == some '?' then
    drop 1
    return flags.swapGreed
  else
    return !flags.swapGreed

end PhraseGrammar.Regex
