import PhraseGrammar.Character.Range

namespace PhraseGrammar.Character

-- A set of characters, as ranges of code points in ascending order.
structure CharacterSet where
  ranges : List Range
  deriving DecidableEq, Repr

namespace CharacterSet

def covered (code : Nat) : List Range → Bool
  | [] => false
  | range :: rest =>
      if code < range.first then false
      else code ≤ range.last || covered code rest

def contains (set : CharacterSet) (character : Char) : Bool :=
  covered character.toNat set.ranges

def empty : CharacterSet := ⟨[]⟩

-- No two ranges of the set overlap or adjoin.
def ofRanges (ranges : List Range) : CharacterSet :=
  ⟨Range.join (ranges.mergeSort fun left right => left.first ≤ right.first)⟩

def ofPairs (pairs : List (Nat × Nat)) : CharacterSet :=
  ofRanges (pairs.map fun (first, last) => ⟨first, last⟩)

def range (first last : Char) : CharacterSet := ⟨[⟨first.toNat, last.toNat⟩]⟩

def single (character : Char) : CharacterSet := range character character

def all : CharacterSet := ⟨[⟨0, lastCode⟩]⟩

def isEmpty (set : CharacterSet) : Bool := set.ranges.isEmpty

def union (left right : CharacterSet) : CharacterSet :=
  ofRanges (left.ranges ++ right.ranges)

def intersectRanges : List Range → List Range → List Range
  | [], _ => []
  | _, [] => []
  | left :: lefts, right :: rights =>
      let rest :=
        if left.last < right.last then intersectRanges lefts (right :: rights)
        else intersectRanges (left :: lefts) rights
      match left.common? right with
      | some range => range :: rest
      | none => rest
  termination_by lefts rights => lefts.length + rights.length

def intersection (left right : CharacterSet) : CharacterSet :=
  ⟨intersectRanges left.ranges right.ranges⟩

def subtractRanges : List Range → List Range → List Range
  | [], _ => []
  | lefts, [] => lefts
  | left :: lefts, right :: rights =>
      if right.last < left.first then subtractRanges (left :: lefts) rights
      else if left.last < right.first then left :: subtractRanges lefts (right :: rights)
      else
        let before :=
          if left.first < right.first then [⟨left.first, previousCode right.first⟩] else []
        let rest :=
          if right.last < left.last then
            subtractRanges (⟨nextCode right.last, left.last⟩ :: lefts) rights
          else
            subtractRanges lefts (right :: rights)
        before ++ rest
  termination_by lefts rights => lefts.length + rights.length

def difference (left right : CharacterSet) : CharacterSet :=
  ⟨subtractRanges left.ranges right.ranges⟩

def symmetricDifference (left right : CharacterSet) : CharacterSet :=
  (left.union right).difference (left.intersection right)

-- What lies behind the last of a range and before the ranges that follow it.
def gapsAfter (last : Nat) : List Range → List Range
  | [] => if last < lastCode then [⟨nextCode last, lastCode⟩] else []
  | next :: rest =>
      Range.between (nextCode last) (previousCode next.first) :: gapsAfter next.last rest

def gaps : List Range → List Range
  | [] => [⟨0, lastCode⟩]
  | range :: rest =>
      let before := if 0 < range.first then [⟨0, previousCode range.first⟩] else []
      before ++ gapsAfter range.last rest

def complement (set : CharacterSet) : CharacterSet := ⟨gaps set.ranges⟩

def complementIf (negated : Bool) (set : CharacterSet) : CharacterSet :=
  if negated then set.complement else set

end CharacterSet

end PhraseGrammar.Character
