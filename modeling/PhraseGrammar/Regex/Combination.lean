import PhraseGrammar.Regex.Pattern

namespace PhraseGrammar.Regex

open PhraseGrammar.Character

namespace Pattern

-- A set of one character is that character.
def ofSet (set : CharacterSet) : Pattern :=
  match set.ranges with
  | [range] => if range.first = range.last then .literal [Char.ofNat range.first] else .oneOf set
  | _ => .oneOf set

-- A repetition of what takes nothing is as good as one occurrence of it.
def repetition (body : Pattern) (least : Nat) (most : Option Nat) (greedy : Bool) : Pattern :=
  let least := if body.takesNothing then min least 1 else least
  let most := if body.takesNothing then some (min (most.getD 1) 1) else most
  if most = some 0 then .empty
  else if least = 1 ∧ most = some 1 then body
  else .repeated body least most greedy

def items : Pattern → List Pattern
  | .empty => []
  | .sequence items => items
  | pattern => [pattern]

-- Text in front of text is one text.
def join : Pattern → List Pattern → List Pattern
  | .literal text, .literal more :: rest => .literal (text ++ more) :: rest
  | pattern, rest => pattern :: rest

def ofItems : List Pattern → Pattern
  | [] => .empty
  | [pattern] => pattern
  | items => .sequence items

-- One pattern after the other. There are no sequences and no empty patterns
-- among the items of a sequence, and no two texts are next to each other.
def concatenate (patterns : List Pattern) : Pattern :=
  ofItems ((patterns.flatMap items).foldr join [])

def branches : Pattern → List Pattern
  | .alternatives branches => branches
  | pattern => [pattern]

def character? : Pattern → Option Char
  | .literal [character] => some character
  | _ => none

def set? : Pattern → Option CharacterSet
  | .oneOf set => some set
  | _ => none

-- The set that alternatives stand for if each is one character or each is a
-- set.
def commonSet? (branches : List Pattern) : Option CharacterSet :=
  match branches.mapM character? with
  | some characters =>
      some (.ofRanges (characters.map fun character => ⟨character.toNat, character.toNat⟩))
  | none =>
      match branches.mapM set? with
      | some sets => some (sets.foldl .union .empty)
      | none => none

def alternation (patterns : List Pattern) : Pattern :=
  match patterns.flatMap branches with
  | [pattern] => pattern
  | branches =>
      match commonSet? branches with
      | some set => ofSet set
      | none => .alternatives branches

def commonLength : List Pattern → List Pattern → Nat
  | first :: rest, other :: others =>
      if first.same other then commonLength rest others + 1 else 0
  | _, _ => 0

def sequenceItems? : Pattern → Option (List Pattern)
  | .sequence items => some items
  | _ => none

-- The items that all alternatives start with come first, if each of them is a
-- sequence, and what is left of the alternatives follows.
def factored : Pattern → Pattern
  | .alternatives branches =>
      match branches.mapM sequenceItems? with
      | some (first :: rest) =>
          let length := (rest.map (commonLength first)).foldl min first.length
          if length = 0 then .alternatives branches
          else
            let left := (first :: rest).map fun items => concatenate (items.drop length)
            concatenate (first.take length ++ [alternation left])
      | _ => .alternatives branches
  | pattern => pattern

def choose (patterns : List Pattern) : Pattern := (alternation patterns).factored

end Pattern

end PhraseGrammar.Regex
