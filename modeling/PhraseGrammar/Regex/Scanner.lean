import PhraseGrammar.Character.Class

namespace PhraseGrammar.Regex

-- Flags that a pattern can set for what follows in the same group.
structure Flags where
  ignoreCase : Bool
  multiLine : Bool
  dotAll : Bool
  swapGreed : Bool
  ignoreSpace : Bool
  carriageReturns : Bool
  deriving DecidableEq, Repr

def Flags.initial : Flags := ⟨false, false, false, false, false, false⟩

-- What is left of a pattern, how many groups have been opened, and the names
-- of those that have one.
structure Scan where
  rest : List Char
  groups : Nat
  names : List (String × Nat)

abbrev Scanner := StateT Scan (Except String)

def refuse {α : Type} (reason : String) : Scanner α := throw reason

def rest : Scanner (List Char) := return (← get).rest

def drop (count : Nat) : Scanner Unit :=
  modify fun scan => { scan with rest := scan.rest.drop count }

-- The text without the white space and the comments that it starts with.
def withoutComments : (steps : Nat) → List Char → List Char
  | 0, text => text
  | steps + 1, text =>
      match text.dropWhile Character.isSpace with
      | '#' :: comment => withoutComments steps ((comment.dropWhile (· != '\n')).drop 1)
      | text => text

-- Passes over white space and comments if the flags say that they do not
-- count.
def skipIgnored (flags : Flags) : Scanner Unit := do
  if flags.ignoreSpace then
    modify fun scan => { scan with rest := withoutComments scan.rest.length scan.rest }

end PhraseGrammar.Regex
