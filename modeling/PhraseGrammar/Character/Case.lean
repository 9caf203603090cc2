import PhraseGrammar.Character.CaseFolding
import PhraseGrammar.Character.Set

namespace PhraseGrammar.Character

-- The code points that a row of the folding table covers, each with its
-- folding.
def rowFoldings : Nat × Nat × Nat × Int → List (Nat × Nat)
  | (first, last, step, shift) =>
      (List.range ((last - first) / step + 1)).map fun index =>
        let code := first + step * index
        (code, (code + shift).toNat)

-- The code points that differ from their simple case folding, each with it.
-- Characters that differ only in case have the same folding.
def foldings : List (Nat × Nat) := foldingRows.flatMap rowFoldings

namespace CharacterSet

def ofCodes (codes : List Nat) : CharacterSet := ofRanges (codes.map fun code => ⟨code, code⟩)

def withFoldings (set : CharacterSet) : CharacterSet :=
  set.union (ofCodes (foldings.filterMap fun (code, folded) =>
    if covered code set.ranges then some folded else none))

-- The set with the characters whose folding it contains.
def withUnfoldings (set : CharacterSet) : CharacterSet :=
  set.union (ofCodes (foldings.filterMap fun (code, folded) =>
    if covered folded set.ranges then some code else none))

-- The characters that differ from one in the set at most in case.
def ignoringCase (set : CharacterSet) : CharacterSet := set.withFoldings.withUnfoldings

def ignoringCaseIf (ignoreCase : Bool) (set : CharacterSet) : CharacterSet :=
  if ignoreCase then set.ignoringCase else set

end CharacterSet

end PhraseGrammar.Character
