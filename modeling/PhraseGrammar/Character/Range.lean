namespace PhraseGrammar.Character

structure Range where
  first : Nat
  last : Nat
  deriving DecidableEq, Repr

-- The surrogates between these two code points are not characters.
def lastBeforeSurrogates : Nat := 0xD7FF

def firstAfterSurrogates : Nat := 0xE000

def lastCode : Nat := 0x10FFFF

def nextCode (code : Nat) : Nat :=
  if code = lastBeforeSurrogates then firstAfterSurrogates else code + 1

def previousCode (code : Nat) : Nat :=
  if code = firstAfterSurrogates then lastBeforeSurrogates else code - 1

namespace Range

def between (one other : Nat) : Range := ⟨min one other, max one other⟩

def common? (left right : Range) : Option Range :=
  let first := max left.first right.first
  let last := min left.last right.last
  if first ≤ last then some ⟨first, last⟩ else none

-- Joins ranges that overlap or adjoin. They come in the order of their first
-- code points.
def join : List Range → List Range
  | [] => []
  | [range] => [range]
  | range :: next :: rest =>
      if next.first ≤ range.last + 1 then
        join (⟨range.first, max range.last next.last⟩ :: rest)
      else
        range :: join (next :: rest)
  termination_by ranges => ranges.length

end Range

end PhraseGrammar.Character
