import PhraseGrammar.Bisection
import PhraseGrammar.Random.Source

namespace PhraseGrammar

variable {ω : Type} [Weight ω]

-- The entry of a table that a drawn number falls on. The number is scaled to
-- the total, and the first entry not below it is searched for; with equal
-- chances it is scaled to the number of entries. The entry never lies past the
-- last one.
def entryAt (table : List ω) (equalized : Bool) (drawn : ω) : Nat :=
  let index :=
    if equalized then
      Weight.wholeUnits (drawn * Weight.ofCount table.length)
    else
      boundary (fun total => decide (total < drawn * lastTotal table)) table
  min index (table.length - 1)

theorem entryAt_lt (table : List ω) (equalized : Bool) (drawn : ω) (h : table ≠ []) :
    entryAt table equalized drawn < table.length := by
  have := List.length_pos_iff.mpr h
  simp only [entryAt]
  omega

-- Selects an entry of a table. A number is drawn only if there are two
-- entries or more.
def selectEntry (table : List ω) (equalized : Bool) (source : Source ω) :
    Option Nat × Source ω :=
  match table with
  | [] => (none, source)
  | [_] => (some 0, source)
  | _ =>
      let (drawn, source) := source.draw
      (some (entryAt table equalized drawn), source)

theorem selectEntry_lt (table : List ω) (equalized : Bool) (source : Source ω) (index : Nat)
    (h : (selectEntry table equalized source).1 = some index) : index < table.length := by
  match table with
  | [] => simp [selectEntry] at h
  | [_] => simp_all [selectEntry]
  | first :: second :: rest =>
      simp only [selectEntry, Option.some.injEq] at h
      exact h ▸ entryAt_lt _ _ _ (by simp)

-- Nothing is selected from an empty table only.
theorem selectEntry_eq_none_iff (table : List ω) (equalized : Bool) (source : Source ω) :
    (selectEntry table equalized source).1 = none ↔ table = [] := by
  match table with
  | [] => simp [selectEntry]
  | [_] => simp [selectEntry]
  | first :: second :: rest => simp [selectEntry]

end PhraseGrammar
