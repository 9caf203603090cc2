import PhraseGrammar.Regex.Automaton.Size
import PhraseGrammar.Regex.Reading
import PhraseGrammar.Regex.Search
import PhraseGrammar.Transform

namespace PhraseGrammar.Regex

-- A piece of a replacement: text, or what a group has matched.
inductive Fragment where
  | text (characters : List Char)
  | group (index : Nat)
  | named (name : String)
  deriving DecidableEq, Repr

def isReferenceCharacter (character : Char) : Bool :=
  character.isAlphanum || character == '_'

def groupNumberLimit : Nat := UInt64.size

-- A reference is a number if it is made of digits, with or without a plus
-- sign, and a name otherwise.
def reference (text : List Char) : Fragment :=
  let digits := match text with
    | '+' :: digits => digits
    | digits => digits
  let value := digits.foldl (fun value digit => 10 * value + (digit.toNat - '0'.toNat)) 0
  if !digits.isEmpty && digits.all Char.isDigit && value < groupNumberLimit then
    .group value
  else
    .named (String.ofList text)

-- Splits a replacement. Two dollar signs are one; a dollar sign before a name
-- or before braces refers to a group; any other stands for itself.
def fragments : (steps : Nat) → List Char → List Fragment
  | 0, _ => []
  | _, [] => []
  | steps + 1, '$' :: '$' :: rest => .text ['$'] :: fragments steps rest
  | steps + 1, '$' :: '{' :: rest =>
      let name := rest.takeWhile (· != '}')
      if name.length < rest.length then
        reference name :: fragments steps (rest.drop (name.length + 1))
      else
        .text ['$'] :: fragments steps ('{' :: rest)
  | steps + 1, '$' :: rest =>
      let name := rest.takeWhile isReferenceCharacter
      if name.isEmpty then
        .text ['$'] :: fragments steps rest
      else
        reference name :: fragments steps (rest.drop name.length)
  | steps + 1, character :: rest => .text [character] :: fragments steps rest

-- A pattern that has been compiled, and what its matches are replaced by.
structure Substitution where
  engine : Engine
  names : List (String × Nat)
  replacement : List Fragment
  global : Bool

-- What a group has matched, nothing if it is not part of the match.
def matched (text : List Char) (slots : Slots) (group : Nat) : List Char :=
  match extent? slots group with
  | some (first, last) => (text.drop first).take (last - first)
  | none => []

def Substitution.expand (substitution : Substitution) (text : List Char) (slots : Slots) :
    List Char :=
  substitution.replacement.flatMap fun
    | .text characters => characters
    | .group index => matched text slots index
    | .named name =>
        match substitution.names.lookup name with
        | some index => matched text slots index
        | none => []

-- The text from a position on, with the given matches replaced.
def Substitution.replaceFrom (substitution : Substitution) (text : List Char) :
    (position : Nat) → List Slots → List Char
  | position, [] => text.drop position
  | position, slots :: rest =>
      let (first, last) := (extent? slots 0).getD (position, position)
      (text.drop position).take (first - position) ++ substitution.expand text slots ++
        replaceFrom substitution text last rest

def Substitution.apply (substitution : Substitution) (text : String) : String :=
  let characters := text.toList
  let steps := if substitution.global then 2 * characters.length + 2 else 1
  let found := substitution.engine.findAll characters steps 0 none
  String.ofList (substitution.replaceFrom characters 0 found)

def sizeMessage : String :=
  "Compiled regex exceeds size limit of " ++ toString sizeLimit ++ " bytes."

def Substitution.compile (pattern replacement : String) (global : Bool) :
    Except String Substitution :=
  match readPattern pattern.toList with
  | .error reason => .error ("regex parse error: " ++ reason)
  | .ok (body, scan) =>
      if !body.fits then .error sizeMessage
      else
        let code := body.code
        .ok {
          engine := ⟨code.program, code.entry, 2 * scan.groups + 2⟩
          names := scan.names
          replacement := fragments replacement.length replacement.toList
          global := global }

-- Replaces matches of regular expressions, the first one or all.
def compiler : Compiler := fun pattern replacement global =>
  match Substitution.compile pattern replacement global with
  | .ok substitution => .ok ⟨pattern, fun text => .ok (substitution.apply text)⟩
  | .error reason => .error reason

end PhraseGrammar.Regex
