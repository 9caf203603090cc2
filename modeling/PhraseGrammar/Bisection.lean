namespace PhraseGrammar

variable {α : Type}

-- Where a search by halving ends, among `size` entries from `base` on. The
-- entry in the middle tells which half to go on with, the first one if it lies
-- past what is looked for. Each step drops an entry at least, so there are no
-- more steps than entries.
def bisect (past : α → Bool) (entries : List α) : (steps base size : Nat) → Nat
  | 0, base, _ => base
  | steps + 1, base, size =>
      if size ≤ 1 then base
      else
        let half := size / 2
        if entries[base + half]?.any past then
          bisect past entries steps base (size - half)
        else
          bisect past entries steps (base + half) (size - half)

-- The place up to which entries are below something, found by halving. Where
-- one that is below comes after one that is not, it depends on the entries that
-- the search happens to look at.
def boundary (below : α → Bool) (entries : List α) : Nat :=
  let place := bisect (fun entry => !below entry) entries entries.length 0 entries.length
  if entries[place]?.any below then place + 1 else place

-- Where the entries past a place are the later ones, the halves that are
-- dropped do not hold the place.
theorem bisect_eq (past : α → Bool) (entries : List α) (last : Nat)
    (hpast : ∀ place entry, 0 < place → entries[place]? = some entry →
      (past entry ↔ last < place))
    (steps base size : Nat) (hsteps : size ≤ steps + 1) (hbase : base ≤ last)
    (hsize : last < base + size) (hend : base + size ≤ entries.length) :
    bisect past entries steps base size = last := by
  induction steps generalizing base size with
  | zero =>
      rw [bisect]
      omega
  | succ steps ih =>
      rw [bisect]
      by_cases hone : size ≤ 1
      · rw [if_pos hone]
        omega
      have hmiddle : base + size / 2 < entries.length := by omega
      have hside := hpast (base + size / 2) _ (by omega) (List.getElem?_eq_getElem hmiddle)
      simp only [if_neg hone, List.getElem?_eq_getElem hmiddle, Option.any_some]
      by_cases hbefore : last < base + size / 2
      · rw [if_pos (hside.mpr hbefore)]
        apply ih <;> omega
      · rw [if_neg (mt hside.mp hbefore)]
        apply ih <;> omega

section Boundary

variable (below : α → Bool) (entries : List α)
  (hordered : entries.Pairwise fun first second => below second → below first)

include hordered

-- If no entry is below after one that is not, those that are below are counted
-- by where the first other one stands.
theorem below_iff_lt_takeWhile (place : Nat) (entry : α) (hentry : entries[place]? = some entry) :
    below entry ↔ place < (entries.takeWhile below).length := by
  induction entries generalizing place with
  | nil => simp at hentry
  | cons first rest ih =>
      obtain ⟨hfirst, hrest⟩ := List.pairwise_cons.mp hordered
      by_cases hbelow : below first
      · rw [List.takeWhile_cons_of_pos hbelow]
        cases place with
        | zero =>
            obtain rfl : first = entry := by simpa using hentry
            simpa using hbelow
        | succ place => simpa using ih hrest place (by simpa using hentry)
      · have hnot : ¬ below entry := by
          rcases List.mem_cons.mp (List.mem_of_getElem? hentry) with rfl | hmem
          · exact hbelow
          · exact mt (hfirst entry hmem) hbelow
        simp [List.takeWhile_cons_of_neg hbelow, hnot]

-- In the order that halving relies on, the search finds what a scan from the
-- left finds.
theorem boundary_eq : boundary below entries = (entries.takeWhile below).length := by
  have hbelow := below_iff_lt_takeWhile below entries hordered
  have hle := (List.takeWhile_prefix (l := entries) below).length_le
  rcases Nat.eq_zero_or_pos entries.length with hnone | hlength
  · obtain rfl := List.length_eq_zero_iff.mp hnone
    rfl
  · generalize (entries.takeWhile below).length = count at hbelow hle
    have hplace : bisect (fun entry => !below entry) entries entries.length 0 entries.length =
        count - 1 := by
      refine bisect_eq _ entries (count - 1) (fun place entry hpos hentry => ?_) _ 0 _ (by omega)
        (by omega) (by omega) (by omega)
      rw [Bool.not_eq_true', ← Bool.not_eq_true, hbelow place entry hentry]
      omega
    have hlast : count - 1 < entries.length := by omega
    have hside := hbelow (count - 1) _ (List.getElem?_eq_getElem hlast)
    simp only [boundary, hplace, List.getElem?_eq_getElem hlast, Option.any_some]
    by_cases hsome : below entries[count - 1]
    · rw [if_pos hsome]
      have := hside.mp hsome
      omega
    · rw [if_neg hsome]
      have := mt hside.mpr hsome
      omega

end Boundary

-- Out of order, the search passes by an entry at which a scan stops.
example : boundary (· < -2) [1, -4] = 2 := by decide

end PhraseGrammar
