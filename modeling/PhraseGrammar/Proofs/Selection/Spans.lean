import Mathlib.Algebra.Order.BigOperators.Group.List
import Mathlib.Algebra.Order.Field.Rat
import PhraseGrammar.Selection

namespace PhraseGrammar

section Draws

variable {ω : Type} [Weight ω] (table : List ω) (equalized : Bool) (source : Source ω)

-- The next number of the source decides between two entries or more.
theorem selectEntry_of_two_le (htwo : 2 ≤ table.length) :
    selectEntry table equalized source =
      (some (entryAt table equalized source.draw.1), source.draw.2) := by
  rcases table with _ | ⟨first, _ | ⟨second, rest⟩⟩
  · simp at htwo
  · simp at htwo
  · rfl

@[simp] theorem stream_selectEntry :
    (selectEntry table equalized source).2.stream = source.stream := by
  rcases table with _ | ⟨first, _ | ⟨second, rest⟩⟩ <;> rfl

end Draws

theorem foldl_add_rat (weights : List Rat) (total : Rat) :
    weights.foldl (fun sum weight => sum + weight) total = total + weights.sum := by
  induction weights generalizing total with
  | nil => simp
  | cons weight rest ih => rw [List.foldl_cons, ih, List.sum_cons, add_assoc]

-- The entries of a table of exact weights are sums.
theorem getElem?_runningTotals_rat (weights : List Rat) (index : Nat)
    (h : index < weights.length) :
    (runningTotals weights)[index]? = some (weights.take (index + 1)).sum := by
  rw [getElem?_runningTotals weights index h]
  exact congrArg some ((foldl_add_rat _ 0).trans (zero_add _))

@[simp] theorem getElem_runningTotals_rat (weights : List Rat) (index : Nat)
    (h : index < (runningTotals weights).length) :
    (runningTotals weights)[index] = (weights.take (index + 1)).sum := by
  have hsome := getElem?_runningTotals_rat weights index (length_runningTotals weights ▸ h)
  rwa [List.getElem?_eq_getElem h, Option.some.injEq] at hsome

@[simp] theorem lastTotal_runningTotals_rat (weights : List Rat) :
    lastTotal (runningTotals weights) = weights.sum := by
  rw [lastTotal_runningTotals]
  exact (foldl_add_rat _ 0).trans (zero_add _)

theorem sum_take_le (weights : List Rat) (hweights : ∀ weight ∈ weights, 0 ≤ weight)
    (m n : Nat) (h : m ≤ n) : (weights.take m).sum ≤ (weights.take n).sum := by
  have hsub : (weights.take m).Sublist (weights.take n) :=
    (List.take_prefix_take_left h).sublist
  exact hsub.sum_le_sum fun weight hmem => hweights weight (List.mem_of_mem_take hmem)

-- The totals of weights that are not negative ascend.
theorem pairwise_runningTotals (weights : List Rat) (hweights : ∀ weight ∈ weights, 0 ≤ weight) :
    (runningTotals weights).Pairwise (· ≤ ·) := by
  rw [List.pairwise_iff_getElem]
  intro first second hfirst hsecond hlt
  rw [getElem_runningTotals_rat, getElem_runningTotals_rat]
  exact sum_take_le weights hweights _ _ (by omega)

-- Where the totals ascend, halving finds the first one that is not below.
theorem boundary_eq_of_ascending (table : List Rat) (hascending : table.Pairwise (· ≤ ·))
    (scaled : Rat) :
    boundary (fun total => decide (total < scaled)) table =
      (table.takeWhile fun total => decide (total < scaled)).length := by
  refine boundary_eq _ _ (hascending.imp fun {first second} hle hbelow => ?_)
  rw [decide_eq_true_iff] at hbelow ⊢
  exact hle.trans_lt hbelow

-- With chances by weight, a number falls on the first total that it does not
-- exceed.
theorem entryAt_eq_findIdx (table : List Rat) (hascending : table.Pairwise (· ≤ ·)) (drawn : Rat)
    (h : ∃ total ∈ table, drawn * lastTotal table ≤ total) :
    entryAt table false drawn =
      table.findIdx fun total => decide (drawn * lastTotal table ≤ total) := by
  have hentry : entryAt table false drawn =
      min (table.takeWhile fun total => decide (total < drawn * lastTotal table)).length
        (table.length - 1) := by
    rw [entryAt, if_neg Bool.false_ne_true, boundary_eq_of_ascending table hascending]
  have hnot : (fun total => !decide (total < drawn * lastTotal table)) =
      fun total => decide (drawn * lastTotal table ≤ total) := by
    funext total
    rw [← decide_not, decide_eq_decide, not_lt]
  have hlt : table.findIdx (fun total => decide (drawn * lastTotal table ≤ total)) <
      table.length := by
    obtain ⟨total, hmem, hle⟩ := h
    exact List.findIdx_lt_length.mpr ⟨total, hmem, decide_eq_true hle⟩
  rw [hentry, List.takeWhile_eq_take_findIdx_not, List.length_take, hnot]
  omega

theorem entryAt_runningTotals_iff (weights : List Rat) (hweights : ∀ weight ∈ weights, 0 ≤ weight)
    (hpositive : 0 < weights.sum) (drawn : Rat) (hdrawn : drawn < 1) (index : Nat)
    (hindex : index < weights.length) :
    entryAt (runningTotals weights) false drawn = index ↔
      (index = 0 ∨ (weights.take index).sum < drawn * weights.sum) ∧
        drawn * weights.sum ≤ (weights.take (index + 1)).sum := by
  have hlength := length_runningTotals weights
  have hlast : ∃ total ∈ runningTotals weights,
      drawn * lastTotal (runningTotals weights) ≤ total := by
    have hlt : weights.length - 1 < (runningTotals weights).length := by omega
    refine ⟨(runningTotals weights)[weights.length - 1], List.getElem_mem hlt, ?_⟩
    rw [getElem_runningTotals_rat, lastTotal_runningTotals_rat, Nat.sub_add_cancel (by omega),
      List.take_length]
    exact mul_le_of_le_one_left hpositive.le hdrawn.le
  rw [entryAt_eq_findIdx _ (pairwise_runningTotals weights hweights) _ hlast,
    List.findIdx_eq (by omega), getElem_runningTotals_rat, lastTotal_runningTotals_rat,
    decide_eq_true_iff, and_comm]
  simp only [getElem_runningTotals_rat, decide_eq_false_iff_not, not_le]
  refine and_congr_left fun _ => ?_
  constructor
  · intro h
    cases index with
    | zero => exact .inl rfl
    | succ index => exact .inr (h index (Nat.lt_succ_self index))
  · rintro (rfl | h) place hplace
    · exact absurd hplace (Nat.not_lt_zero place)
    · exact lt_of_le_of_lt (sum_take_le weights hweights _ _ hplace) h

-- A number of which nothing is left when it is scaled falls on the first entry.
theorem entryAt_runningTotals_of_mul_eq_zero (weights : List Rat)
    (hweights : ∀ weight ∈ weights, 0 ≤ weight) (drawn : Rat) (hnone : drawn * weights.sum = 0) :
    entryAt (runningTotals weights) false drawn = 0 := by
  have hnot : ∀ total ∈ runningTotals weights, ¬ total < 0 := by
    intro total hmem
    obtain ⟨index, hindex, rfl⟩ := List.getElem_of_mem hmem
    rw [getElem_runningTotals_rat, not_lt]
    exact sum_take_le weights hweights 0 (index + 1) (Nat.zero_le _)
  have hscan : (runningTotals weights).takeWhile (fun total => decide (total < 0)) = [] := by
    cases htable : runningTotals weights with
    | nil => rfl
    | cons first rest =>
        have hfirst := hnot first (by rw [htable]; exact List.mem_cons_self)
        exact List.takeWhile_cons_of_neg (by simpa using hfirst)
  rw [entryAt, if_neg Bool.false_ne_true, lastTotal_runningTotals_rat, hnone,
    boundary_eq_of_ascending _ (pairwise_runningTotals weights hweights), hscan,
    List.length_nil, Nat.zero_min]

-- With equal chances, a fraction falls on the entry that is its numerator.
theorem entryAt_fraction (table : List Rat) (index : Nat) (h : index < table.length) :
    entryAt table true (index / table.length) = index := by
  have hlength : (table.length : Rat) ≠ 0 := Nat.cast_ne_zero.mpr (by omega)
  have hscaled : (index / table.length : Rat) * Weight.ofCount table.length = index :=
    div_mul_cancel₀ _ hlength
  have hunits : Weight.wholeUnits (index : Rat) = index := rfl
  rw [entryAt, if_pos rfl, hscaled, hunits]
  omega

-- The numbers from zero to one that fall on an entry make an interval of the
-- given length. That of the first entry begins with zero, and any other goes
-- without its lower end.
def Spans (table : List Rat) (equalized : Bool) (index : Nat) (share : Rat) : Prop :=
  ∃ low, 0 ≤ low ∧ (index = 0 → low = 0) ∧ low + share ≤ 1 ∧ ∀ drawn, 0 ≤ drawn → drawn < 1 →
    (entryAt table equalized drawn = index ↔ (index = 0 ∨ low < drawn) ∧ drawn ≤ low + share)

theorem spans_runningTotals (weights : List Rat) (hweights : ∀ weight ∈ weights, 0 ≤ weight)
    (hpositive : 0 < weights.sum) (index : Nat) (weight : Rat)
    (hindex : weights[index]? = some weight) :
    Spans (runningTotals weights) false index (weight / weights.sum) := by
  obtain ⟨hlt, rfl⟩ := List.getElem?_eq_some_iff.mp hindex
  have hnext : (weights.take (index + 1)).sum = (weights.take index).sum + weights[index] := by
    rw [List.take_add_one, List.getElem?_eq_getElem hlt, List.sum_append]
    simp
  have hzero := sum_take_le weights hweights 0 index (Nat.zero_le index)
  have hone := sum_take_le weights hweights (index + 1) weights.length hlt
  rw [List.take_length, hnext] at hone
  rw [List.take_zero, List.sum_nil] at hzero
  refine ⟨(weights.take index).sum / weights.sum, div_nonneg hzero hpositive.le, ?_, ?_, ?_⟩
  · rintro rfl
    rw [List.take_zero, List.sum_nil, zero_div]
  · rwa [← add_div, div_le_one₀ hpositive]
  · intro drawn _ hdrawn
    rw [entryAt_runningTotals_iff weights hweights hpositive drawn hdrawn index hlt, hnext,
      ← add_div, div_lt_iff₀ hpositive, le_div_iff₀ hpositive]

end PhraseGrammar
