namespace PhraseGrammar

-- The numbers that weights and draws are made of. Phrases are generated at
-- machine floats; the laws of selection are laws of exact rationals.
class Weight (ω : Type) extends Zero ω, One ω, Add ω, Mul ω, LT ω where
  decideLt (a b : ω) : Decidable (a < b)
  ofCount (count : Nat) : ω
  -- The whole units of a weight. A negative weight and one that is not a
  -- number have none.
  wholeUnits (weight : ω) : Nat
  -- The numeral whose digits are `digits`, the last `places` of them after
  -- the point.
  ofDecimal (digits places : Nat) : ω

instance (priority := low) Weight.decidable {ω : Type} [Weight ω] (a b : ω) : Decidable (a < b) :=
  Weight.decideLt a b

instance : Weight Float where
  zero := 0
  one := 1
  add a b := a + b
  mul a b := a * b
  lt a b := a < b
  decideLt a b := inferInstanceAs (Decidable (a < b))
  ofCount count := Float.ofNat count
  wholeUnits weight := weight.toUInt64.toNat
  ofDecimal digits places := Float.ofScientific digits true places

instance : Weight Rat where
  zero := 0
  one := 1
  add a b := a + b
  mul a b := a * b
  lt a b := a < b
  decideLt a b := inferInstanceAs (Decidable (a < b))
  ofCount count := (count : Rat)
  wholeUnits weight := weight.floor.toNat
  ofDecimal digits places := (digits : Rat) / (Nat.pow 10 places : Nat)

variable {ω : Type} [Weight ω]

-- Entry `i` is `total` plus the first `i + 1` weights, added from the left.
def runningTotalsFrom (total : ω) : List ω → List ω
  | [] => []
  | weight :: rest => (total + weight) :: runningTotalsFrom (total + weight) rest

-- The table of a list of weights: entry `i` is the sum of weights `0` to `i`.
def runningTotals (weights : List ω) : List ω :=
  runningTotalsFrom 0 weights

-- The sum of all weights of a table, nothing for the empty one.
def lastTotal (table : List ω) : ω :=
  table.getLast?.getD 0

@[simp] theorem length_runningTotalsFrom (total : ω) (weights : List ω) :
    (runningTotalsFrom total weights).length = weights.length := by
  induction weights generalizing total with
  | nil => rfl
  | cons weight rest ih => simp only [runningTotalsFrom, List.length_cons, ih]

@[simp] theorem length_runningTotals (weights : List ω) :
    (runningTotals weights).length = weights.length :=
  length_runningTotalsFrom 0 weights

-- A table goes on from the sum of what it holds.
theorem runningTotalsFrom_append (total : ω) (left right : List ω) :
    runningTotalsFrom total (left ++ right) =
      runningTotalsFrom total left ++
        runningTotalsFrom ((runningTotalsFrom total left).getLast?.getD total) right := by
  induction left generalizing total with
  | nil => rfl
  | cons weight rest ih =>
      simp only [List.cons_append, runningTotalsFrom, ih, List.getLast?_cons, Option.getD_some]

theorem runningTotals_append (left right : List ω) :
    runningTotals (left ++ right) =
      runningTotals left ++ runningTotalsFrom (lastTotal (runningTotals left)) right :=
  runningTotalsFrom_append 0 left right

theorem getElem?_runningTotalsFrom (total : ω) (weights : List ω) (index : Nat)
    (h : index < weights.length) :
    (runningTotalsFrom total weights)[index]? =
      some ((weights.take (index + 1)).foldl (· + ·) total) := by
  induction weights generalizing total index with
  | nil => exact absurd h (Nat.not_lt_zero index)
  | cons weight rest ih =>
      cases index with
      | zero => rfl
      | succ index => exact ih (total + weight) index (Nat.lt_of_succ_lt_succ h)

theorem getElem?_runningTotals (weights : List ω) (index : Nat) (h : index < weights.length) :
    (runningTotals weights)[index]? = some ((weights.take (index + 1)).foldl (· + ·) 0) :=
  getElem?_runningTotalsFrom 0 weights index h

theorem getLast?_runningTotalsFrom (total : ω) (weights : List ω) :
    (runningTotalsFrom total weights).getLast?.getD total = weights.foldl (· + ·) total := by
  induction weights generalizing total with
  | nil => rfl
  | cons weight rest ih =>
      rw [runningTotalsFrom, List.getLast?_cons, Option.getD_some, ih, List.foldl_cons]

-- The last entry of a table is the sum of all weights.
theorem lastTotal_runningTotals (weights : List ω) :
    lastTotal (runningTotals weights) = weights.foldl (· + ·) 0 :=
  getLast?_runningTotalsFrom 0 weights

end PhraseGrammar
