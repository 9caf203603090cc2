import Mathlib.Data.List.Sort
import PhraseGrammar.Ensemble

namespace PhraseGrammar.Ensemble

variable {ω : Type}

theorem getElem?_of_placeOf? (ensemble : Ensemble ω) (identity place : Nat)
    (h : ensemble.placeOf? identity = some place) :
    ensemble.identities[place]? = some identity := by
  unfold placeOf? at h
  dsimp only at h
  split at h
  · exact Option.some.inj h ▸ ‹_›
  · cases h

theorem lt_length_of_placeOf? (ensemble : Ensemble ω) (identity place : Nat)
    (h : ensemble.placeOf? identity = some place) : place < ensemble.members.length := by
  have hsome := ensemble.getElem?_of_placeOf? identity place h
  obtain ⟨hlt, _⟩ := List.getElem?_eq_some_iff.mp hsome
  rwa [identities, List.length_map] at hlt

-- Where the identities ascend, one that is not found is not there.
theorem placeOf?_eq_none_iff (ensemble : Ensemble ω)
    (hascending : ensemble.identities.Pairwise (· < ·)) (identity : Nat) :
    ensemble.placeOf? identity = none ↔ identity ∉ ensemble.identities := by
  constructor
  · intro hnone hmem
    obtain ⟨place, hplace, rfl⟩ := List.getElem_of_mem hmem
    have hfound := bisect_eq (ensemble.identities[place] < ·) ensemble.identities place
      (fun other entry _ hentry => ?_) ensemble.identities.length 0 ensemble.identities.length
      (by omega) (by omega) (by omega) (by omega)
    · unfold placeOf? at hnone
      simp [hfound] at hnone
    · obtain ⟨hother, rfl⟩ := List.getElem?_eq_some_iff.mp hentry
      rw [decide_eq_true_iff]
      exact hascending.sortedLT.getElem_lt_getElem_iff
  · intro hnot
    cases h : ensemble.placeOf? identity with
    | none => rfl
    | some place =>
        exact absurd (List.mem_of_getElem? (ensemble.getElem?_of_placeOf? identity place h)) hnot

end PhraseGrammar.Ensemble
