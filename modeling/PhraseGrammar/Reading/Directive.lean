import PhraseGrammar.Reading.Layout
import PhraseGrammar.Transform

namespace PhraseGrammar.Reading

def readSeparator : Reader Char := do
  match ← remaining with
  | [] => fail .unexpectedEnd
  | separator :: _ =>
      if separator = '{' then fail .braceSeparator
      if separator.toNat ≥ 128 then fail .wideSeparator
      if separator.toNat < 32 || separator.toNat = 127 then fail .controlSeparator
      skip 1
      return separator

def readBounded (separator : Char) (mayBeEmpty : Bool) : Reader String := do
  let text ← readWhile (· != separator)
  if text.isEmpty && !mayBeEmpty then fail .patternExpected
  if (← remaining).isEmpty then fail .unexpectedEnd
  skip 1
  return String.ofList text

def readGlobalFlag : Reader Bool := do
  if (← remaining).head? == some 'g' then
    skip 1
    return true
  else
    return false

variable (compile : Compiler)

def readDirective : Reader Transform := do
  let separator ← readSeparator
  let pattern ← readBounded separator false
  let replacement ← readBounded separator true
  let global ← readGlobalFlag
  match compile pattern replacement global with
  | .ok transform => return transform
  | .error reason => fail (.refusedSubstitution reason)

-- Reads the directives that follow a tilde each. Each step moves the cursor
-- on, so there are no more steps than characters.
def readMoreDirectives : (steps : Nat) → List Transform → Reader (List Transform)
  | 0, transforms => return transforms
  | steps + 1, transforms => do
      match ← remaining with
      | '~' :: _ =>
          skip 1
          skipToContinuation
          let transform ← readDirective compile
          skipBlanks false
          readMoreDirectives steps (transforms ++ [transform])
      | _ => return transforms

def readDirectives : Reader (List Transform) := do
  readMoreDirectives compile (← remaining).length []

end PhraseGrammar.Reading
