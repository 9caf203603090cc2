import Mathlib.Logic.Relation

namespace PhraseGrammar

variable {α : Type} {step : α → α → Prop}

-- Things in an order, the latest first, in which every step leads from a thing
-- to an older one.
inductive Descends (step : α → α → Prop) : List α → Prop
  | nil : Descends step []
  | cons (first : α) (older : List α) (hnew : first ∉ older)
      (hbelow : ∀ next, step first next → next ∈ older) (holder : Descends step older) :
      Descends step (first :: older)

theorem Descends.nodup (order : List α) (h : Descends step order) : order.Nodup := by
  induction h with
  | nil => exact List.nodup_nil
  | cons first older hnew _ _ ih => exact List.nodup_cons.mpr ⟨hnew, ih⟩

theorem Descends.step_mem (order : List α) (h : Descends step order) (one other : α)
    (hone : one ∈ order) (hstep : step one other) : other ∈ order := by
  induction h with
  | nil => simp at hone
  | cons first older _ hbelow _ ih =>
      rcases List.mem_cons.mp hone with rfl | hone
      · exact List.mem_cons_of_mem _ (hbelow other hstep)
      · exact List.mem_cons_of_mem _ (ih hone)

theorem Descends.reach_mem (order : List α) (h : Descends step order) (one other : α)
    (hone : one ∈ order) (hreach : Relation.ReflTransGen step one other) : other ∈ order := by
  induction hreach with
  | refl => exact hone
  | tail _ hlast ih => exact h.step_mem order _ _ ih hlast

theorem Descends.acc (order : List α) (h : Descends step order) (one : α) (hone : one ∈ order) :
    Acc (fun next last => step last next) one := by
  induction h generalizing one with
  | nil => simp at hone
  | cons first older _ hbelow _ ih =>
      rcases List.mem_cons.mp hone with rfl | hone
      · exact .intro _ fun next hnext => ih next (hbelow next hnext)
      · exact ih one hone

-- Where steps come to an end, none leads back.
theorem not_transGen_of_acc (one : α) (h : Acc (fun next last => step last next) one) :
    ¬ Relation.TransGen step one one := by
  induction h with
  | intro one _ ih =>
      intro hcycle
      obtain ⟨next, hfirst, hback⟩ := Relation.TransGen.head'_iff.mp hcycle
      exact ih next hfirst (.tail' hback hfirst)

theorem Descends.no_cycle (order : List α) (h : Descends step order) (one : α)
    (hone : one ∈ order) : ¬ Relation.TransGen step one one :=
  not_transGen_of_acc one (h.acc order one hone)

end PhraseGrammar
