import Mathlib.Data.List.TakeWhile
import Mathlib.Data.Rat.Floor
import Mathlib.Order.Interval.Set.Basic
import PhraseGrammar.Proofs.Selection.Spans

namespace PhraseGrammar

-- Where a number falls before it is kept to the last entry.
def uncappedEntry (table : List Rat) (equalized : Bool) (drawn : Rat) : Nat :=
  if equalized then
    Weight.wholeUnits (drawn * Weight.ofCount table.length)
  else
    boundary (fun total => decide (total < drawn * lastTotal table)) table

theorem entryAt_eq_min (table : List Rat) (equalized : Bool) (drawn : Rat) :
    entryAt table equalized drawn = min (uncappedEntry table equalized drawn) (table.length - 1) :=
  rfl

theorem entryAt_eq_uncappedEntry (table : List Rat) (equalized : Bool) (drawn : Rat)
    (h : uncappedEntry table equalized drawn < table.length) :
    entryAt table equalized drawn = uncappedEntry table equalized drawn := by
  rw [entryAt_eq_min]
  omega

-- The entry that is selected when the given number comes next.
def selectedBy (table : List Rat) (equalized : Bool) (drawn : Rat) : Option Nat :=
  (selectEntry table equalized (.ofStream fun _ => drawn)).1

theorem selectedBy_of_two_le (table : List Rat) (equalized : Bool) (drawn : Rat)
    (htwo : 2 ≤ table.length) :
    selectedBy table equalized drawn = some (entryAt table equalized drawn) := by
  rw [selectedBy, selectEntry_of_two_le table equalized _ htwo]
  rfl

-- A source has no say in what is selected but by its next number.
theorem selectEntry_eq_selectedBy (table : List Rat) (equalized : Bool) (source : Source Rat)
    (htwo : 2 ≤ table.length) :
    selectEntry table equalized source =
      (selectedBy table equalized source.draw.1, source.draw.2) := by
  rw [selectedBy_of_two_le table equalized _ htwo, selectEntry_of_two_le table equalized _ htwo]

theorem selectedBy_eq_some_iff (table : List Rat) (equalized : Bool) (drawn : Rat)
    (htwo : 2 ≤ table.length) (index : Nat) :
    selectedBy table equalized drawn = some index ↔ entryAt table equalized drawn = index := by
  rw [selectedBy_of_two_le table equalized drawn htwo]
  exact Option.some_inj

-- The numbers from zero to one that select an entry.
def drawsFor (table : List Rat) (equalized : Bool) (index : Nat) : Set Rat :=
  {drawn | 0 ≤ drawn ∧ drawn < 1 ∧ selectedBy table equalized drawn = some index}

-- The numbers are all those between two ends of the given distance, and no
-- others but perhaps the ends.
def FillsInterval (numbers : Set Rat) (length : Rat) : Prop :=
  ∃ low high, high - low = length ∧ Set.Ioo low high ⊆ numbers ∧ numbers ⊆ Set.Icc low high

-- The numbers from zero to one are split among the entries of a table. Each
-- entry has an interval of its share, the intervals are in the order of the
-- entries, and no number has to be kept to the last entry.
structure SplitsUnit (table : List Rat) (equalized : Bool) (share : Nat → Rat) : Prop where
  fills (index : Nat) (hindex : index < table.length) :
    FillsInterval (drawsFor table equalized index) (share index)
  disjoint (drawn : Rat) (first second : Nat) (hfirst : drawn ∈ drawsFor table equalized first)
    (hsecond : drawn ∈ drawsFor table equalized second) : first = second
  covers : ⋃ index ∈ Set.Iio table.length, drawsFor table equalized index = Set.Ico 0 1
  ordered (less more : Rat) (first second : Nat) (hless : less ∈ drawsFor table equalized first)
    (hmore : more ∈ drawsFor table equalized second) (hle : less ≤ more) : first ≤ second
  uncapped (drawn : Rat) (hzero : 0 ≤ drawn) (hone : drawn < 1) :
    entryAt table equalized drawn = uncappedEntry table equalized drawn

section Splits

variable (table : List Rat) (equalized : Bool) (htwo : 2 ≤ table.length)

include htwo

theorem mem_drawsFor_iff (index : Nat) (drawn : Rat) :
    drawn ∈ drawsFor table equalized index ↔
      0 ≤ drawn ∧ drawn < 1 ∧ entryAt table equalized drawn = index := by
  rw [drawsFor, Set.mem_ofPred_eq, selectedBy_eq_some_iff table equalized drawn htwo]

theorem eq_of_mem_drawsFor (drawn : Rat) (first second : Nat)
    (hfirst : drawn ∈ drawsFor table equalized first)
    (hsecond : drawn ∈ drawsFor table equalized second) : first = second := by
  rw [mem_drawsFor_iff table equalized htwo] at hfirst hsecond
  exact hfirst.2.2.symm.trans hsecond.2.2

theorem iUnion_drawsFor :
    ⋃ index ∈ Set.Iio table.length, drawsFor table equalized index = Set.Ico 0 1 := by
  ext drawn
  simp only [Set.mem_iUnion, Set.mem_Iio, exists_prop, Set.mem_Ico,
    mem_drawsFor_iff table equalized htwo]
  constructor
  · rintro ⟨index, _, hzero, hone, _⟩
    exact ⟨hzero, hone⟩
  · rintro ⟨hzero, hone⟩
    have hne : table ≠ [] := List.ne_nil_of_length_pos (by omega)
    exact ⟨_, entryAt_lt table equalized drawn hne, hzero, hone, rfl⟩

-- What an entry spans is an interval.
theorem Spans.fillsInterval (index : Nat) (share : Rat) (h : Spans table equalized index share) :
    FillsInterval (drawsFor table equalized index) share := by
  obtain ⟨low, hlow, hfirst, hhigh, hiff⟩ := h
  refine ⟨low, low + share, add_sub_cancel_left low share, ?_, ?_⟩
  · rintro drawn ⟨habove, hbelow⟩
    have hzero : 0 ≤ drawn := hlow.trans habove.le
    have hone : drawn < 1 := hbelow.trans_le hhigh
    rw [mem_drawsFor_iff table equalized htwo]
    exact ⟨hzero, hone, (hiff drawn hzero hone).mpr ⟨.inr habove, hbelow.le⟩⟩
  · intro drawn hdrawn
    rw [mem_drawsFor_iff table equalized htwo] at hdrawn
    obtain ⟨hzero, hone, hentry⟩ := hdrawn
    obtain ⟨hstart, hend⟩ := (hiff drawn hzero hone).mp hentry
    rcases hstart with hindex | habove
    · exact ⟨(hfirst hindex).symm ▸ hzero, hend⟩
    · exact ⟨habove.le, hend⟩

end Splits

section Weighted

variable (weights : List Rat) (hweights : ∀ weight ∈ weights, 0 ≤ weight)

include hweights

-- A greater number does not fall on an earlier entry.
theorem entryAt_runningTotals_mono (hpositive : 0 < weights.sum) (less more : Rat)
    (hle : less ≤ more) (hmore : more < 1) :
    entryAt (runningTotals weights) false less ≤ entryAt (runningTotals weights) false more := by
  have hne : runningTotals weights ≠ [] := by
    intro hnil
    have hlength := length_runningTotals weights
    rw [hnil, List.length_nil, eq_comm, List.length_eq_zero_iff] at hlength
    simp [hlength] at hpositive
  have hlt (drawn : Rat) : entryAt (runningTotals weights) false drawn < weights.length := by
    have := entryAt_lt (runningTotals weights) false drawn hne
    simpa using this
  by_contra hgt
  rw [not_le] at hgt
  -- The total that the greater number does not exceed is one that the lesser does.
  have hbefore := (entryAt_runningTotals_iff weights hweights hpositive less
    (hle.trans_lt hmore) _ (hlt less)).mp rfl
  have hafter := (entryAt_runningTotals_iff weights hweights hpositive more hmore _
    (hlt more)).mp rfl
  have hstart : (weights.take (entryAt (runningTotals weights) false less)).sum <
      less * weights.sum := by
    rcases hbefore.1 with hzero | hstart
    · omega
    · exact hstart
  have hsums := sum_take_le weights hweights _ _ hgt
  have hscaled : less * weights.sum ≤ more * weights.sum :=
    mul_le_mul_of_nonneg_right hle hpositive.le
  have hend := hafter.2
  exact absurd (hstart.trans_le (hscaled.trans hend)) (not_lt.mpr hsums)

theorem uncappedEntry_runningTotals_lt (hpositive : 0 < weights.sum) (drawn : Rat)
    (hdrawn : drawn < 1) :
    uncappedEntry (runningTotals weights) false drawn < (runningTotals weights).length := by
  have hsome : weights ≠ [] := by
    rintro rfl
    simp at hpositive
  have hlength := length_runningTotals weights
  have hlt : weights.length - 1 < (runningTotals weights).length := by
    have := List.length_pos_iff.mpr hsome
    omega
  -- The last total is the whole, which no scaled number reaches.
  have hlast := getElem_runningTotals_rat weights (weights.length - 1) hlt
  rw [Nat.sub_add_cancel (List.length_pos_iff.mpr hsome), List.take_length] at hlast
  have hmem : weights.sum ∈ runningTotals weights := hlast ▸ List.getElem_mem hlt
  have hreached : ¬ weights.sum < drawn * weights.sum :=
    not_lt.mpr (mul_le_of_le_one_left hpositive.le hdrawn.le)
  rw [uncappedEntry, if_neg Bool.false_ne_true, lastTotal_runningTotals_rat,
    boundary_eq_of_ascending _ (pairwise_runningTotals weights hweights)]
  have hstarts := List.takeWhile_prefix (l := runningTotals weights)
    fun total => decide (total < drawn * weights.sum)
  refine lt_of_le_of_ne hstarts.length_le fun hwhole => ?_
  have hall := List.takeWhile_eq_self_iff.mp (hstarts.eq_of_length hwhole)
  exact hreached (of_decide_eq_true (hall _ hmem))

-- The draws for an entry by the totals before it and up to it. Zero is a draw
-- for the first entry, whatever that weighs.
theorem mem_drawsFor_runningTotals_iff (htwo : 2 ≤ weights.length) (hpositive : 0 < weights.sum)
    (index : Nat) (hindex : index < weights.length) (drawn : Rat) :
    drawn ∈ drawsFor (runningTotals weights) false index ↔
      0 ≤ drawn ∧ drawn < 1 ∧
        (index = 0 ∧ drawn = 0 ∨ (weights.take index).sum < drawn * weights.sum) ∧
        drawn * weights.sum ≤ (weights.take (index + 1)).sum := by
  have htable : 2 ≤ (runningTotals weights).length := by simpa
  rw [mem_drawsFor_iff _ _ htable]
  refine and_congr_right fun hzero => and_congr_right fun hone => ?_
  rw [entryAt_runningTotals_iff weights hweights hpositive drawn hone index hindex]
  refine and_congr_left fun _ => ?_
  constructor
  · rintro (rfl | habove)
    · rcases hzero.eq_or_lt with hdrawn | hdrawn
      · exact .inl ⟨rfl, hdrawn.symm⟩
      · right
        rw [List.take_zero, List.sum_nil]
        exact mul_pos hdrawn hpositive
    · exact .inr habove
  · rintro (⟨hfirst, _⟩ | habove)
    · exact .inl hfirst
    · exact .inr habove

theorem splitsUnit_runningTotals (htwo : 2 ≤ weights.length) (hpositive : 0 < weights.sum) :
    SplitsUnit (runningTotals weights) false
      fun index => (weights[index]?).getD 0 / weights.sum := by
  have hlength := length_runningTotals weights
  have htable : 2 ≤ (runningTotals weights).length := hlength ▸ htwo
  refine ⟨?_, eq_of_mem_drawsFor _ _ htable, iUnion_drawsFor _ _ htable, ?_, ?_⟩
  · intro index hindex
    have hsome := List.getElem?_eq_getElem (hlength ▸ hindex : index < weights.length)
    rw [hsome, Option.getD_some]
    exact (spans_runningTotals weights hweights hpositive index _ hsome).fillsInterval _ _ htable
  · intro less more first second hless hmore hle
    rw [mem_drawsFor_iff _ _ htable] at hless hmore
    rw [← hless.2.2, ← hmore.2.2]
    exact entryAt_runningTotals_mono weights hweights hpositive less more hle hmore.2.1
  · intro drawn _ hone
    apply entryAt_eq_uncappedEntry
    exact uncappedEntry_runningTotals_lt weights hweights hpositive drawn hone

end Weighted

section Equalized

variable (table : List Rat)

-- With equal chances, a number falls on the whole units of its scale.
theorem uncappedEntry_equalized_iff (drawn : Rat) (hzero : 0 ≤ drawn) (index : Nat) :
    uncappedEntry table true drawn = index ↔
      (index : Rat) ≤ drawn * table.length ∧ drawn * table.length < index + 1 := by
  have hunits : uncappedEntry table true drawn = ⌊drawn * (table.length : Rat)⌋₊ := by
    rw [uncappedEntry, if_pos rfl]
    exact Int.floor_toNat (drawn * (table.length : Rat))
  have hscaled : 0 ≤ drawn * (table.length : Rat) := mul_nonneg hzero (Nat.cast_nonneg _)
  rw [hunits, Nat.floor_eq_iff hscaled]

theorem uncappedEntry_equalized_lt (drawn : Rat) (hzero : 0 ≤ drawn) (hone : drawn < 1)
    (hsome : 0 < table.length) : uncappedEntry table true drawn < table.length := by
  have hlength : (0 : Rat) < table.length := Nat.cast_pos.mpr hsome
  have hunits := ((uncappedEntry_equalized_iff table drawn hzero _).mp rfl).1
  have hscaled : drawn * table.length < table.length := mul_lt_of_lt_one_left hlength hone
  exact Nat.cast_lt.mp (hunits.trans_lt hscaled)

theorem entryAt_equalized_iff (drawn : Rat) (hzero : 0 ≤ drawn) (hone : drawn < 1)
    (hsome : 0 < table.length) (index : Nat) :
    entryAt table true drawn = index ↔
      (index / table.length : Rat) ≤ drawn ∧ drawn < (index + 1) / table.length := by
  have hlength : (0 : Rat) < table.length := Nat.cast_pos.mpr hsome
  have hlt := uncappedEntry_equalized_lt table drawn hzero hone hsome
  rw [entryAt_eq_uncappedEntry table true drawn hlt,
    uncappedEntry_equalized_iff table drawn hzero, div_le_iff₀ hlength, lt_div_iff₀ hlength]

theorem splitsUnit_equalized (htwo : 2 ≤ table.length) :
    SplitsUnit table true fun _ => 1 / table.length := by
  have hsome : 0 < table.length := by omega
  have hlength : (0 : Rat) < table.length := Nat.cast_pos.mpr hsome
  refine ⟨?_, eq_of_mem_drawsFor _ _ htwo, iUnion_drawsFor _ _ htwo, ?_, ?_⟩
  · intro index hindex
    refine ⟨index / table.length, (index + 1) / table.length, ?_, ?_, ?_⟩
    · rw [← sub_div, add_sub_cancel_left]
    · rintro drawn ⟨habove, hbelow⟩
      have hzero : 0 ≤ drawn := (div_nonneg (Nat.cast_nonneg _) hlength.le).trans habove.le
      have hend : ((index + 1) / table.length : Rat) ≤ 1 := by
        rw [div_le_one₀ hlength]
        exact_mod_cast hindex
      have hone : drawn < 1 := hbelow.trans_le hend
      rw [mem_drawsFor_iff _ _ htwo, entryAt_equalized_iff table drawn hzero hone hsome]
      exact ⟨hzero, hone, habove.le, hbelow⟩
    · intro drawn hdrawn
      rw [mem_drawsFor_iff _ _ htwo] at hdrawn
      obtain ⟨hzero, hone, hentry⟩ := hdrawn
      rw [entryAt_equalized_iff table drawn hzero hone hsome] at hentry
      exact ⟨hentry.1, hentry.2.le⟩
  · intro less more first second hless hmore hle
    rw [mem_drawsFor_iff _ _ htwo] at hless hmore
    obtain ⟨hzero, hone, hfirst⟩ := hless
    obtain ⟨hzero', hone', hsecond⟩ := hmore
    rw [entryAt_equalized_iff table less hzero hone hsome, div_le_iff₀ hlength] at hfirst
    rw [entryAt_equalized_iff table more hzero' hone' hsome, lt_div_iff₀ hlength] at hsecond
    have hscaled : less * table.length ≤ more * table.length :=
      mul_le_mul_of_nonneg_right hle hlength.le
    have hlt : (first : Rat) < (second + 1 : Nat) := by
      push_cast
      exact hfirst.1.trans_lt (hscaled.trans_lt hsecond.2)
    have := Nat.cast_lt.mp hlt
    omega
  · intro drawn hzero hone
    apply entryAt_eq_uncappedEntry
    exact uncappedEntry_equalized_lt table drawn hzero hone hsome

end Equalized

-- Weights from which something is to be selected split the draws from zero to
-- one in proportion. Each of them has an interval of its part of the whole,
-- without its lower end but for zero, which is a draw for the first; with
-- equal chances all have intervals of the same length.
theorem selection_is_proportional (weights : List Rat) (htwo : 2 ≤ weights.length)
    (hweights : ∀ weight ∈ weights, 0 ≤ weight) :
    (∀ equalized source, selectEntry (runningTotals weights) equalized source =
      (selectedBy (runningTotals weights) equalized source.draw.1, source.draw.2)) ∧
    (0 < weights.sum →
      SplitsUnit (runningTotals weights) false
        (fun index => (weights[index]?).getD 0 / weights.sum) ∧
      ∀ index < weights.length, ∀ drawn,
        drawn ∈ drawsFor (runningTotals weights) false index ↔
          0 ≤ drawn ∧ drawn < 1 ∧
            (index = 0 ∧ drawn = 0 ∨ (weights.take index).sum < drawn * weights.sum) ∧
            drawn * weights.sum ≤ (weights.take (index + 1)).sum) ∧
    SplitsUnit (runningTotals weights) true (fun _ => 1 / weights.length) ∧
    (weights.sum = 0 → ∀ drawn, selectedBy (runningTotals weights) false drawn = some 0) := by
  have hlength := length_runningTotals weights
  have htable : 2 ≤ (runningTotals weights).length := hlength ▸ htwo
  refine ⟨?_, fun hpositive => ⟨?_, ?_⟩, ?_, fun hnone drawn => ?_⟩
  · exact fun equalized source => selectEntry_eq_selectedBy _ equalized source htable
  · exact splitsUnit_runningTotals weights hweights htwo hpositive
  · exact mem_drawsFor_runningTotals_iff weights hweights htwo hpositive
  · have hequal := splitsUnit_equalized (runningTotals weights) htable
    rwa [hlength] at hequal
  · rw [selectedBy_eq_some_iff _ _ _ htable]
    exact entryAt_runningTotals_of_mul_eq_zero weights hweights drawn (by rw [hnone, mul_zero])

-- Two weights of three, with nothing before and between them.
theorem selection_of_sparse_weights :
    FillsInterval (drawsFor (runningTotals [0, 1, 0, 2]) false 1) (1 / 3) ∧
      FillsInterval (drawsFor (runningTotals [0, 1, 0, 2]) false 2) 0 ∧
      (0 : Rat) ∈ drawsFor (runningTotals [0, 1, 0, 2]) false 0 ∧
      (1 / 3 : Rat) ∈ drawsFor (runningTotals [0, 1, 0, 2]) false 1 ∧
      FillsInterval (drawsFor (runningTotals [0, 1, 0, 2]) true 2) (1 / 4) ∧
      selectedBy (runningTotals [0, 0]) false (1 / 2) = some 0 := by
  obtain ⟨_, hsplits, hequal, _⟩ := selection_is_proportional [0, 1, 0, 2] (by decide) (by decide)
  obtain ⟨hsplit, hmem⟩ := hsplits (by decide +kernel)
  obtain ⟨_, _, _, hzero⟩ := selection_is_proportional [0, 0] (by decide) (by decide)
  have hthird : (1 : Rat) / [(0 : Rat), 1, 0, 2].sum = 1 / 3 := by decide +kernel
  have hnothing : (0 : Rat) / [(0 : Rat), 1, 0, 2].sum = 0 := by decide +kernel
  have hquarter : (1 : Rat) / ([(0 : Rat), 1, 0, 2].length : Nat) = 1 / 4 := by decide +kernel
  refine ⟨(congrArg (FillsInterval _) hthird).mp (hsplit.fills 1 (by decide)),
    (congrArg (FillsInterval _) hnothing).mp (hsplit.fills 2 (by decide)), ?_, ?_,
    (congrArg (FillsInterval _) hquarter).mp (hequal.fills 2 (by decide)),
    hzero (by decide +kernel) _⟩
  · exact (hmem 0 (by decide) 0).mpr (by decide +kernel)
  · exact (hmem 1 (by decide) (1 / 3)).mpr (by decide +kernel)

end PhraseGrammar
