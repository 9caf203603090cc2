import PhraseGrammar.Regex.Scanner

namespace PhraseGrammar.Regex

-- What an opening parenthesis starts: a group that is captured under a number,
-- one that is not, or no group but flags for what follows.
inductive Opening where
  | capture (index : Nat)
  | plain (flags : Flags)
  | flags (flags : Flags)

def Flags.set? (flags : Flags) (enable : Bool) : Char → Option Flags
  | 'i' => some { flags with ignoreCase := enable }
  | 'm' => some { flags with multiLine := enable }
  | 's' => some { flags with dotAll := enable }
  | 'U' => some { flags with swapGreed := enable }
  | 'x' => some { flags with ignoreSpace := enable }
  | 'R' => some { flags with carriageReturns := enable }
  | 'u' => if enable then some flags else none
  | _ => none

-- Sets the flags that the letters name. The letters after a hyphen clear
-- theirs. No letter comes twice, and a hyphen is followed by a letter.
def setFlags (flags : Flags) (enable : Bool) : (seen : List Char) → List Char → Option Flags
  | seen, [] => if seen.head? == some '-' then none else some flags
  | seen, letter :: rest =>
      if seen.contains letter then none
      else if letter = '-' then setFlags flags false ('-' :: seen) rest
      else
        match flags.set? enable letter with
        | some flags => setFlags flags enable (letter :: seen) rest
        | none => none

def isGroupNameStart (character : Char) : Bool :=
  character == '_' || Character.alphabetic.contains character

def isGroupNameCharacter (character : Char) : Bool :=
  character == '_' || character == '.' || character == '[' || character == ']' ||
    Character.alphanumeric.contains character

def isGroupName : List Char → Bool
  | [] => false
  | first :: rest => isGroupNameStart first && rest.all isGroupNameCharacter

def nextGroup : Scanner Nat := do
  modify fun scan => { scan with groups := scan.groups + 1 }
  return (← get).groups

def readGroupName : Scanner Nat := do
  let name := (← rest).takeWhile (· != '>')
  if name.length = (← rest).length then refuse "unclosed group name"
  if !isGroupName name then refuse "bad group name"
  let name := String.ofList name
  if ((← get).names.lookup name).isSome then refuse "duplicate group name"
  drop (name.length + 1)
  let index ← nextGroup
  modify fun scan => { scan with names := scan.names ++ [(name, index)] }
  return index

def readOpening (flags : Flags) : Scanner Opening := do
  skipIgnored flags
  match ← rest with
  | '?' :: '=' :: _ | '?' :: '!' :: _ | '?' :: '<' :: '=' :: _ | '?' :: '<' :: '!' :: _ =>
      refuse "look-around"
  | '?' :: 'P' :: '<' :: _ =>
      drop 3
      return .capture (← readGroupName)
  | '?' :: '<' :: _ =>
      drop 2
      return .capture (← readGroupName)
  | '?' :: text =>
      let letters := text.takeWhile fun c => c != ':' && c != ')'
      match setFlags flags true [] letters, text[letters.length]? with
      | some flags, some ':' =>
          drop (letters.length + 2)
          return .plain flags
      | some flags, some ')' =>
          if letters.isEmpty then refuse "no flags"
          drop (letters.length + 2)
          return .flags flags
      | _, _ => refuse "bad flags"
  | _ => return .capture (← nextGroup)

end PhraseGrammar.Regex
