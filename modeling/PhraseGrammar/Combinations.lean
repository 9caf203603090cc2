import PhraseGrammar.Weight

namespace PhraseGrammar

-- Numbers of combinations are exact up to this limit and stay there beyond.
def combinationLimit : Nat := UInt64.size - 1

def capped (count : Nat) : Nat := min count combinationLimit

-- Nothing is lost by a limit that is kept on the way.
theorem capped_add_capped (left right : Nat) :
    capped (capped left + capped right) = capped (left + right) := by
  simp only [capped]
  omega

-- A factor of zero counts also after the limit has been reached.
theorem capped_mul_capped (left right : Nat) :
    capped (capped left * capped right) = capped (left * right) := by
  have hlimit : 0 < combinationLimit := by decide
  rcases Nat.eq_zero_or_pos left with rfl | hl
  · simp [capped]
  rcases Nat.eq_zero_or_pos right with rfl | hr
  · simp [capped]
  simp only [capped]
  by_cases h₁ : left ≤ combinationLimit
  · by_cases h₂ : right ≤ combinationLimit
    · rw [Nat.min_eq_left h₁, Nat.min_eq_left h₂]
    · have hm : combinationLimit ≤ left * combinationLimit := Nat.le_mul_of_pos_left _ hl
      have hn : left * combinationLimit ≤ left * right := Nat.mul_le_mul_left _ (by omega)
      rw [Nat.min_eq_left h₁, Nat.min_eq_right (by omega : combinationLimit ≤ right)]
      omega
  · have hm : combinationLimit ≤ combinationLimit * min right combinationLimit :=
      Nat.le_mul_of_pos_right _ (by omega)
    have hn : left ≤ left * right := Nat.le_mul_of_pos_right _ hr
    rw [Nat.min_eq_right (by omega : combinationLimit ≤ left)]
    omega

-- What a part contributes to the choice it stands in: a factor of the
-- choice's weight and of its number of combinations.
structure Tally (ω : Type) where
  weight : ω
  combinations : Nat

namespace Tally

variable {ω : Type} [Weight ω]

def one : Tally ω := ⟨1, 1⟩

def times (left right : Tally ω) : Tally ω :=
  ⟨left.weight * right.weight, capped (left.combinations * right.combinations)⟩

end Tally

-- The number of combinations of alternatives with the given numbers.
def totalCombinations (counts : List Nat) : Nat :=
  counts.foldl (fun sum count => capped (sum + count)) 0

end PhraseGrammar
