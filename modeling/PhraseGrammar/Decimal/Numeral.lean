namespace PhraseGrammar.Decimal

def digitValue (digit : Char) : Nat := digit.toNat - '0'.toNat

def digitsValue (digits : List Char) : Nat :=
  digits.foldl (fun value digit => 10 * value + digitValue digit) 0

-- Reads digits with at most one point among them, before or after them, as
-- the number of all digits and the number of those after the point.
def readNumeral? (text : List Char) : Option (Nat × Nat) :=
  let whole := text.takeWhile Char.isDigit
  match text.dropWhile Char.isDigit with
  | [] => if whole.isEmpty then none else some (digitsValue whole, 0)
  | '.' :: fraction =>
      if fraction.all Char.isDigit && !(whole.isEmpty && fraction.isEmpty) then
        some (digitsValue (whole ++ fraction), fraction.length)
      else none
  | _ => none

end PhraseGrammar.Decimal
