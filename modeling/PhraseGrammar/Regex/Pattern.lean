import PhraseGrammar.Regex.Assertion

namespace PhraseGrammar.Regex

open PhraseGrammar.Character

-- A pattern prefers its earlier alternatives, and more repetitions to fewer if
-- it is greedy.
inductive Pattern where
  | empty
  | literal (text : List Char)
  | oneOf (set : CharacterSet)
  | require (assertion : Assertion)
  | sequence (items : List Pattern)
  | alternatives (branches : List Pattern)
  | group (index : Nat) (body : Pattern)
  | repeated (body : Pattern) (least : Nat) (most : Option Nat) (greedy : Bool)

namespace Pattern

mutual

def same : Pattern → Pattern → Bool
  | .empty, .empty => true
  | .literal text, .literal other => text == other
  | .oneOf set, .oneOf other => set == other
  | .require assertion, .require other => assertion == other
  | .sequence items, .sequence others => allSame items others
  | .alternatives branches, .alternatives others => allSame branches others
  | .group index body, .group other inner => index == other && body.same inner
  | .repeated body least most greedy, .repeated inner fewest greatest eager =>
      body.same inner && least == fewest && most == greatest && greedy == eager
  | _, _ => false

def allSame : List Pattern → List Pattern → Bool
  | [], [] => true
  | first :: rest, other :: others => first.same other && allSame rest others
  | _, _ => false

end

mutual

def nullable : Pattern → Bool
  | .empty | .require _ => true
  | .literal text => text.isEmpty
  | .oneOf _ => false
  | .sequence items => allNullable items
  | .alternatives branches => anyNullable branches
  | .group _ body => body.nullable
  | .repeated body least _ _ => least == 0 || body.nullable

def allNullable : List Pattern → Bool
  | [] => true
  | first :: rest => first.nullable && allNullable rest

def anyNullable : List Pattern → Bool
  | [] => false
  | first :: rest => first.nullable || anyNullable rest

end

mutual

-- Does the pattern take no character, however it matches?
def takesNothing : Pattern → Bool
  | .empty | .require _ => true
  | .literal text => text.isEmpty
  | .oneOf _ => false
  | .sequence items => allTakeNothing items
  | .alternatives branches => allTakeNothing branches
  | .group _ body => body.takesNothing
  | .repeated body _ most _ => most == some 0 || body.takesNothing

def allTakeNothing : List Pattern → Bool
  | [] => true
  | first :: rest => first.takesNothing && allTakeNothing rest

end

mutual

-- The least number of characters that the pattern takes. A pattern with an
-- empty set in it has none.
def leastLength? : Pattern → Option Nat
  | .empty | .require _ => some 0
  | .literal text => some text.length
  | .oneOf set => if set.isEmpty then none else some 1
  | .sequence items => totalLength? items
  | .alternatives [] => none
  | .alternatives (first :: rest) => do shortestLength? (← first.leastLength?) rest
  | .group _ body => body.leastLength?
  | .repeated body least _ _ => do return least * (← body.leastLength?)

def totalLength? : List Pattern → Option Nat
  | [] => some 0
  | first :: rest => do return (← first.leastLength?) + (← totalLength? rest)

def shortestLength? (shortest : Nat) : List Pattern → Option Nat
  | [] => some shortest
  | first :: rest => do shortestLength? (min shortest (← first.leastLength?)) rest

end

mutual

def startsText : Pattern → Bool
  | .require assertion => assertion == .textStart
  | .sequence items => firstStartsText items
  | .alternatives branches => !branches.isEmpty && allStartText branches
  | .group _ body => body.startsText
  | .repeated body least _ _ => least != 0 && body.startsText
  | _ => false

-- An item that takes nothing leaves the next one where it stands itself.
def firstStartsText : List Pattern → Bool
  | [] => false
  | first :: rest => first.startsText || (first.takesNothing && firstStartsText rest)

def allStartText : List Pattern → Bool
  | [] => true
  | first :: rest => first.startsText && allStartText rest

end

mutual

def endsText : Pattern → Bool
  | .require assertion => assertion == .textEnd
  | .sequence items => lastEndsText items
  | .alternatives branches => !branches.isEmpty && allEndText branches
  | .group _ body => body.endsText
  | .repeated body least _ _ => least != 0 && body.endsText
  | _ => false

def lastEndsText : List Pattern → Bool
  | [] => false
  | first :: rest => lastEndsText rest || (allTakeNothing rest && first.endsText)

def allEndText : List Pattern → Bool
  | [] => true
  | first :: rest => first.endsText && allEndText rest

end

end Pattern

end PhraseGrammar.Regex
