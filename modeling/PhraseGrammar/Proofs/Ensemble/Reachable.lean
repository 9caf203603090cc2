import PhraseGrammar.Proofs.Ensemble.Places
import PhraseGrammar.Proofs.Grammar.Reachable

namespace PhraseGrammar

variable {ω : Type} [Weight ω]

-- A successful binding leaves a start.
theorem Grammar.exists_start (grammar : Grammar ω) (start : String)
    (h : (grammar.bind start).2 = []) : ∃ index, (grammar.bind start).1.start = some index := by
  cases hindex : grammar.indexOf? start with
  | none => simp [bind, hindex] at h
  | some index =>
      simp only [bind, hindex] at h ⊢
      exact ⟨index, by rw [h, List.isEmpty_nil, if_pos rfl]⟩

theorem take_runningTotals (weights : List ω) (count : Nat) :
    (runningTotals weights).take count = runningTotals (weights.take count) := by
  obtain hle | hlt := Nat.le_total weights.length count
  · rw [List.take_of_length_le hle, List.take_of_length_le (by simpa)]
  · have hlength : (runningTotals (weights.take count)).length = count := by
      rw [length_runningTotals, List.length_take, Nat.min_eq_left hlt]
    have happend := runningTotals_append (weights.take count) (weights.drop count)
    rw [List.take_append_drop] at happend
    rw [happend, List.take_left' hlength]

-- A table without an entry is kept up to it and totalled anew from there.
theorem runningTotals_eraseIdx (weights : List ω) (index : Nat) (h : index < weights.length) :
    runningTotals (weights.eraseIdx index) =
      (runningTotals weights).take index ++
        runningTotalsFrom (lastTotal ((runningTotals weights).take index))
          ((weights.eraseIdx index).drop index) := by
  have hlength : (weights.take index).length = index := by
    rw [List.length_take, Nat.min_eq_left (Nat.le_of_lt h)]
  rw [List.eraseIdx_eq_take_drop_succ, runningTotals_append, take_runningTotals,
    List.drop_left' hlength]

namespace Ensemble

-- The ensembles that can be made. A copy of an ensemble is the ensemble, and a
-- cleared one is empty.
inductive Reachable : Ensemble ω → Prop
  | empty : Reachable empty
  | add (ensemble : Ensemble ω) (grammar : Grammar ω) (start : String) (supply : IdentitySupply)
      (h : Reachable ensemble) (hgrammar : grammar.Reachable) :
      Reachable (ensemble.add grammar start supply).2.1
  | remove (ensemble : Ensemble ω) (identity : Nat) (h : Reachable ensemble) :
      Reachable (ensemble.remove identity).2
  | equalize (ensemble : Ensemble ω) (equalized : Bool) (h : Reachable ensemble) :
      Reachable { ensemble with equalized := equalized }

def weights (ensemble : Ensemble ω) : List ω :=
  ensemble.members.map fun member => member.grammar.weight

-- The table is that of the weights of the members, and every member is bound.
structure Totalled (ensemble : Ensemble ω) : Prop where
  table : ensemble.table = runningTotals ensemble.weights
  bound (member : Member ω) (hmember : member ∈ ensemble.members) :
    member.grammar.Reachable ∧ ∃ start, member.grammar.start = some start

theorem add_eq (ensemble : Ensemble ω) (grammar : Grammar ω) (start : String)
    (supply : IdentitySupply) :
    ensemble.add grammar start supply =
      if (grammar.bind start).2.isEmpty then
        (.ok supply.next,
          { ensemble with
            members := ensemble.members ++ [⟨supply.next, (grammar.bind start).1⟩]
            table := ensemble.table ++ [ensemble.weight + (grammar.bind start).1.weight] },
          supply.rest)
      else
        (.error (grammar.bind start).2, ensemble, supply) := rfl

theorem weights_add (ensemble : Ensemble ω) (grammar : Grammar ω) (start : String)
    (supply : IdentitySupply) (hbinds : (grammar.bind start).2 = []) :
    (ensemble.add grammar start supply).2.1.weights =
      ensemble.weights ++ [(grammar.bind start).1.weight] := by
  simp only [add_eq, hbinds, List.isEmpty_nil, if_true, weights, List.map_append, List.map_cons,
    List.map_nil]

-- The table of an ensemble goes on as if it had been made of all weights.
theorem table_add (ensemble : Ensemble ω) (h : ensemble.table = runningTotals ensemble.weights)
    (grammar : Grammar ω) (start : String) (supply : IdentitySupply) :
    (ensemble.add grammar start supply).2.1.table =
      runningTotals (ensemble.add grammar start supply).2.1.weights := by
  by_cases hbinds : (grammar.bind start).2 = []
  · rw [ensemble.weights_add grammar start supply hbinds, runningTotals_append, ← h, add_eq, hbinds]
    rfl
  · rw [add_eq, if_neg (mt List.isEmpty_iff.mp hbinds)]
    exact h

theorem table_remove (ensemble : Ensemble ω) (h : ensemble.table = runningTotals ensemble.weights)
    (identity : Nat) :
    (ensemble.remove identity).2.table = runningTotals (ensemble.remove identity).2.weights := by
  cases hplace : ensemble.placeOf? identity with
  | none =>
      simp only [Ensemble.remove, hplace]
      exact h
  | some index =>
      have hlt := ensemble.lt_length_of_placeOf? identity index hplace
      have hindex : index < ensemble.weights.length := by
        rwa [weights, List.length_map]
      have hrest : (ensemble.members.eraseIdx index).map (fun member => member.grammar.weight) =
          ensemble.weights.eraseIdx index :=
        (List.eraseIdx_map _ _ _).symm
      simp only [Ensemble.remove, hplace, weights, List.map_drop, hrest, h]
      exact (runningTotals_eraseIdx _ _ hindex).symm

theorem Totalled.add (ensemble : Ensemble ω) (h : ensemble.Totalled) (grammar : Grammar ω)
    (hgrammar : grammar.Reachable) (start : String) (supply : IdentitySupply) :
    (ensemble.add grammar start supply).2.1.Totalled where
  table := ensemble.table_add h.table grammar start supply
  bound := by
    rw [add_eq]
    split
    · rename_i hreports
      intro member hmember
      rcases List.mem_append.mp hmember with hold | hadded
      · exact h.bound member hold
      · obtain rfl := List.mem_singleton.mp hadded
        exact ⟨.bind grammar start hgrammar,
          grammar.exists_start start (List.isEmpty_iff.mp hreports)⟩
    · exact h.bound

theorem Totalled.remove (ensemble : Ensemble ω) (h : ensemble.Totalled) (identity : Nat) :
    (ensemble.remove identity).2.Totalled where
  table := ensemble.table_remove h.table identity
  bound := by
    cases hplace : ensemble.placeOf? identity with
    | none =>
        simp only [Ensemble.remove, hplace]
        exact h.bound
    | some index =>
        simp only [Ensemble.remove, hplace]
        exact fun member hmember => h.bound member (List.mem_of_mem_eraseIdx hmember)

theorem Reachable.totalled (ensemble : Ensemble ω) (h : ensemble.Reachable) :
    ensemble.Totalled := by
  induction h with
  | empty => exact ⟨rfl, fun member hmember => absurd hmember List.not_mem_nil⟩
  | add ensemble grammar start supply _ hgrammar ih => exact ih.add _ grammar hgrammar start supply
  | remove ensemble identity _ ih => exact ih.remove _ identity
  | equalize ensemble equalized _ ih => exact ⟨ih.table, ih.bound⟩

end Ensemble

end PhraseGrammar
