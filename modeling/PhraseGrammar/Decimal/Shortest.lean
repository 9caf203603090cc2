namespace PhraseGrammar.Decimal

-- A positive number `significand * 2 ^ exponent`, as a machine float holds it,
-- and whether the float below it is nearer than the one above.
structure Binary where
  significand : Nat
  exponent : Int
  narrowBelow : Bool
  deriving DecidableEq, Repr

-- Digits of a decimal number and the power of ten that they are multiplied by.
structure Scaled where
  digits : Nat
  exponent : Int
  deriving DecidableEq, Repr

-- The reals that are read as a number, as multiples of a quarter of its last
-- place, and the scale that turns this unit into a fraction `scale / divisor`
-- of one unit of the decimal grid. The ends belong to it if `closed`.
structure Interval where
  low : Nat
  middle : Nat
  high : Nat
  closed : Bool

def Binary.interval (binary : Binary) : Interval where
  low := 4 * binary.significand - if binary.narrowBelow then 1 else 2
  middle := 4 * binary.significand
  high := 4 * binary.significand + 2
  closed := binary.significand % 2 == 0

-- The factors by which quarters of the last place are multiplied and divided to
-- become multiples of `10 ^ exponent`.
def Binary.scale (binary : Binary) (exponent : Int) : Nat × Nat :=
  (Nat.pow 2 (binary.exponent - 2).toNat * Nat.pow 10 (-exponent).toNat,
    Nat.pow 2 (2 - binary.exponent).toNat * Nat.pow 10 exponent.toNat)

def Interval.contains (interval : Interval) (multiplier divisor digits : Nat) : Bool :=
  let point := digits * divisor
  let low := interval.low * multiplier
  let high := interval.high * multiplier
  if interval.closed then low ≤ point && point ≤ high else low < point && point < high

-- The decimal on the grid of `10 ^ exponent` that is read as a number and is
-- nearest to it, the upper one of two.
def Binary.onGrid? (binary : Binary) (exponent : Int) : Option Nat :=
  let interval := binary.interval
  let (multiplier, divisor) := binary.scale exponent
  let middle := interval.middle * multiplier
  let below := middle / divisor
  let rest := middle % divisor
  let hitsBelow := interval.contains multiplier divisor below
  let hitsAbove := interval.contains multiplier divisor (below + 1)
  if hitsAbove && (!hitsBelow || divisor ≤ 2 * rest) then some (below + 1)
  else if hitsBelow then some below
  else none

-- Looks for the coarsest grid on which a decimal is read as the number.
def Binary.coarsest (binary : Binary) : (steps : Nat) → (exponent : Int) → Scaled
  | 0, exponent => ⟨0, exponent⟩
  | steps + 1, exponent =>
      match binary.onGrid? exponent with
      | some digits => ⟨digits, exponent⟩
      | none => binary.coarsest steps (exponent - 1)

-- The shortest decimal that is read as the number, and the nearest of those.
-- Every float lies below `10 ^ 309`, and on the grid of `10 ^ -324` each has a
-- decimal that is read as it.
def Binary.shortest (binary : Binary) : Scaled := binary.coarsest 640 310

inductive Magnitude where
  | zero
  | finite (binary : Binary)
  | infinite
  | notANumber
  deriving DecidableEq, Repr

def magnitude (float : Float) : Magnitude :=
  let bits := float.toBits.toNat
  let fraction := bits % 0x10000000000000
  let exponent := bits / 0x10000000000000 % 0x800
  if exponent = 2047 then
    if fraction = 0 then .infinite else .notANumber
  else if exponent = 0 then
    if fraction = 0 then .zero else .finite ⟨fraction, -1074, false⟩
  else
    .finite ⟨0x10000000000000 + fraction, (exponent : Int) - 1075, fraction = 0 && exponent > 1⟩

-- Writes a decimal with a point where it is needed and without an exponent.
def Scaled.positional (decimal : Scaled) : String :=
  let digits := Nat.toDigits 10 decimal.digits
  let places := (-decimal.exponent).toNat
  let digits := digits ++ List.replicate decimal.exponent.toNat '0'
  let digits := List.replicate (places + 1 - digits.length) '0' ++ digits
  let whole := digits.take (digits.length - places)
  let fraction := digits.drop (digits.length - places)
  String.ofList (if fraction.isEmpty then whole else whole ++ '.' :: fraction)

def isNegative (float : Float) : Bool := float.toBits.toNat ≥ UInt64.size / 2

-- The text of a float: the fewest digits that are read as it, never an
-- exponent, and no point in a whole number.
def text (float : Float) : String :=
  let sign := if isNegative float then "-" else ""
  match magnitude float with
  | .zero => sign ++ "0"
  | .finite binary => sign ++ binary.shortest.positional
  | .infinite => sign ++ "inf"
  | .notANumber => "NaN"

end PhraseGrammar.Decimal
