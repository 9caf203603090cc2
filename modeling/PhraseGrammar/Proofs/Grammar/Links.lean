import PhraseGrammar.Proofs.Grammar.Reachable
import PhraseGrammar.Proofs.Inlining.Kept
import PhraseGrammar.Proofs.Rule.Links

namespace PhraseGrammar

theorem exists_getElem?_of_filter {α : Type} (keep : α → Bool) (entries : List α) (index : Nat)
    (entry : α) (h : (entries.filter keep)[index]? = some entry) :
    ∃ place, index ≤ place ∧ entries[place]? = some entry := by
  induction entries generalizing index with
  | nil => simp at h
  | cons first rest ih =>
      by_cases hkeep : keep first
      · rw [List.filter_cons_of_pos hkeep] at h
        cases index with
        | zero => exact ⟨0, Nat.le_refl 0, h⟩
        | succ index =>
            obtain ⟨place, hle, hplace⟩ := ih index h
            exact ⟨place + 1, Nat.succ_le_succ hle, hplace⟩
      · rw [List.filter_cons_of_neg hkeep] at h
        obtain ⟨place, hle, hplace⟩ := ih index h
        exact ⟨place + 1, Nat.le_succ_of_le hle, hplace⟩

-- An entry of a list without repetitions keeps its place exactly if nothing up
-- to it is dropped.
theorem getElem?_filter_iff {α : Type} (keep : α → Bool) (entries : List α) (hnodup : entries.Nodup)
    (index : Nat) (entry : α) (h : entries[index]? = some entry) :
    (entries.filter keep)[index]? = some entry ↔
      ∀ place ≤ index, ∀ other, entries[place]? = some other → keep other := by
  induction entries generalizing index with
  | nil => simp at h
  | cons first rest ih =>
      by_cases hkeep : keep first
      · rw [List.filter_cons_of_pos hkeep]
        cases index with
        | zero =>
            refine iff_of_true h fun place hle other hother => ?_
            obtain rfl := Nat.le_zero.mp hle
            rwa [← Option.some.inj hother]
        | succ index =>
            rw [List.getElem?_cons_succ, ih (List.nodup_cons.mp hnodup).2 index h]
            constructor
            · rintro hall (_ | place) hle other hother
              · simp_all
              · exact hall place (Nat.le_of_succ_le_succ hle) other hother
            · intro hall place hle other hother
              exact hall (place + 1) (Nat.succ_le_succ hle) other hother
      · refine iff_of_false (fun hkept => ?_) fun hall => hkeep (hall 0 (Nat.zero_le _) first rfl)
        rw [List.filter_cons_of_neg hkeep] at hkept
        obtain ⟨place, hle, hplace⟩ := exists_getElem?_of_filter keep rest index entry hkept
        have hlt : index < (first :: rest).length := (List.getElem?_eq_some_iff.mp h).1
        have hsame : index = place + 1 :=
          (List.getElem?_inj hlt hnodup).mp (h.trans hplace.symm)
        omega

variable {ω : Type}

namespace Grammar

-- A name is stored at the place at which it is assigned.
def StoredAt (grammar : Grammar ω) (name : String) (index : Nat) : Prop :=
  grammar.nameAt? index = some name

-- Every stored link leads to the rule that is stored under the name.
def Linked (grammar : Grammar ω) : Prop :=
  ∀ assignment ∈ grammar.assignments, LinksLead grammar.StoredAt assignment.rule.references

theorem Linked.longer (grammar : Grammar ω) (h : grammar.Linked) (other : Grammar ω)
    (hnames : grammar.names <+: other.names)
    (hrules : ∀ assignment ∈ other.assignments,
      assignment ∈ grammar.assignments ∨ ∃ rule : Rule ω, assignment.rule = rule.unlinked) :
    other.Linked := by
  intro assignment hassignment
  rcases hrules assignment hassignment with hold | ⟨rule, hrule⟩
  · intro name index hreference
    obtain ⟨more, hmore⟩ := hnames
    have hplace : grammar.names[index]? = some name := h assignment hold name index hreference
    have hlt : index < grammar.names.length := (List.getElem?_eq_some_iff.mp hplace).1
    rw [StoredAt, nameAt?, ← hmore, List.getElem?_append_left hlt, hplace]
  · rw [hrule]
    exact rule.linksLead_unlinked

theorem Linked.insert (grammar : Grammar ω) (h : grammar.Linked) (name : String) (rule : Rule ω) :
    (grammar.insert name rule).1.Linked := by
  cases hname : grammar.indexOf? name with
  | some index =>
      simp only [Grammar.insert, hname]
      exact h
  | none =>
      simp only [Grammar.insert, hname]
      refine h.longer grammar _ ⟨[name], by simp [names]⟩ fun assignment hassignment => ?_
      rcases List.mem_append.mp hassignment with hold | hadded
      · exact .inl hold
      · rw [List.mem_singleton.mp hadded]
        exact .inr ⟨rule, rfl⟩

-- Names that have been assigned keep their places.
theorem prefix_overwriteAll (assignments others : List (Assignment ω)) :
    assignments.map Assignment.name <+:
      (overwriteAll assignments others).1.map Assignment.name := by
  induction others generalizing assignments with
  | nil => exact List.prefix_rfl
  | cons other rest ih =>
      refine List.IsPrefix.trans ?_ (ih (overwrite assignments ⟨other.name, other.rule.unlinked⟩).1)
      rw [names_overwrite]
      split
      · exact List.prefix_rfl
      · exact List.prefix_append _ _

theorem Linked.merge (grammar other : Grammar ω) (h : grammar.Linked) :
    (grammar.merge other).1.Linked :=
  h.longer grammar _ (prefix_overwriteAll _ _) fun _ hassignment =>
    mem_overwriteAll _ _ _ hassignment

end Grammar

section Binding

variable [Weight ω]

def BindingPass.Linked (leads : String → Nat → Prop) (pass : BindingPass ω) : Prop :=
  ∀ index rule, pass.ruleAt? index = some rule → LinksLead leads rule.references

omit [Weight ω] in
theorem BindingPass.Linked.put {leads : String → Nat → Prop} (pass : BindingPass ω)
    (h : pass.Linked leads) (index : Nat) (rule : Rule ω)
    (hrule : LinksLead leads rule.references) : (pass.put index rule).Linked leads := by
  intro other found hfound
  rw [pass.ruleAt?_put] at hfound
  split at hfound
  · obtain ⟨_, _, rfl⟩ := Option.map_eq_some_iff.mp hfound
    exact hrule
  · exact h other found hfound

namespace Grammar

variable (grammar : Grammar ω)

theorem followsWithin_follow (visit : Nat → BindingPass ω → Bool × BindingPass ω)
    (hvisit : ∀ index pass, pass.Linked grammar.StoredAt →
      (visit index pass).2.Linked grammar.StoredAt) :
    FollowsWithin grammar.StoredAt (BindingPass.Linked grammar.StoredAt)
      (grammar.follow visit) := by
  intro name pass h
  cases hname : grammar.indexOf? name with
  | none =>
      simpa only [follow, hname, reduceCtorEq, false_implies, implies_true, and_true] using h
  | some index =>
      have hnext := hvisit index pass h
      have hplace := grammar.nameAt?_of_indexOf? name index hname
      simp only [follow, hname]
      rcases hanswer : visit index pass with ⟨_ | _, next⟩ <;> rw [hanswer] at hnext
      · refine ⟨hnext, fun other factor hother => ?_⟩
        cases hother
      · refine ⟨hnext, fun other factor hother => ?_⟩
        obtain ⟨rule, _, hsame⟩ := Option.map_eq_some_iff.mp hother
        obtain ⟨rfl, _⟩ := Prod.mk.inj hsame
        exact hplace

-- A visit links to the places of names only.
theorem linked_visit (depth index : Nat) (pass : BindingPass ω) (h : pass.Linked grammar.StoredAt) :
    (grammar.visit depth index pass).2.Linked grammar.StoredAt := by
  induction depth generalizing index pass with
  | zero =>
      unfold visit
      split
      · exact h
      · split_ifs <;> exact h
  | succ depth ih =>
      unfold visit
      split
      · exact h
      · rename_i rule hrule
        split_ifs
        · exact h
        · exact h
        · have hfollow := grammar.followsWithin_follow (grammar.visit depth) ih
          obtain ⟨hnext, hlinks⟩ := rule.linksLead_bound hfollow _
            (h.put pass index rule.opened linksLead_nil)
          exact hnext.put _ index _ ((Rule.references_marked _ _).symm ▸ hlinks)

omit [Weight ω] in
@[simp] theorem storedAt_nextPass : grammar.nextPass.StoredAt = grammar.StoredAt := by
  funext name index
  rw [StoredAt, nameAt?, names_nextPass, StoredAt, nameAt?]

omit [Weight ω] in
theorem Linked.nextPass (h : grammar.Linked) :
    BindingPass.Linked grammar.nextPass.StoredAt ⟨grammar.nextPass.assignments, []⟩ := by
  intro index rule hrule
  have hplace : grammar.nextPass.ruleAt? index = some rule := hrule
  rw [ruleAt?_nextPass] at hplace
  obtain ⟨old, hold, rfl⟩ := Option.map_eq_some_iff.mp hplace
  obtain ⟨assignment, hassignment, rfl⟩ := Option.map_eq_some_iff.mp hold
  rw [storedAt_nextPass, Rule.references_marked]
  exact h assignment (List.mem_of_getElem? hassignment)

theorem Linked.bind (h : grammar.Linked) (hsettled : grammar.Settled) (start : String) :
    (grammar.bind start).1.Linked := by
  have hstored : (grammar.bind start).1.StoredAt = grammar.nextPass.StoredAt := by
    funext name index
    rw [storedAt_nextPass, StoredAt, nameAt?, grammar.names_bind start hsettled, StoredAt, nameAt?]
  cases hstart : grammar.indexOf? start with
  | none =>
      simp only [Grammar.bind, hstart]
      exact h
  | some first =>
      have hpass := grammar.nextPass.linked_visit grammar.nextPass.assignments.length first _
        (h.nextPass grammar)
      intro assignment hassignment
      obtain ⟨index, hindex⟩ := List.mem_iff_getElem?.mp hassignment
      rw [hstored]
      simp only [Grammar.bind, hstart] at hindex
      exact hpass index assignment.rule (by rw [BindingPass.ruleAt?, hindex, Option.map_some])

end Grammar

end Binding

section Inlining

namespace Grammar

variable (grammar : Grammar ω)

theorem keptByInlining_linksLead :
    KeptByInlining fun rule : Rule ω => LinksLead grammar.StoredAt rule.references :=
  fun _ hresolve rule pass => rule.linksLead_inlined hresolve pass

variable (h : grammar.Linked)

include h

-- After inlining every link still leads to where its name has been assigned
-- before.
theorem Linked.linksLead_inlineLocals : ∀ assignment ∈ grammar.inlineLocals.1.assignments,
    LinksLead grammar.StoredAt assignment.rule.references :=
  grammar.kept_inlineLocals grammar.keptByInlining_linksLead h

omit h in
-- No link that inlining leaves reaches to a local name or past one.
def Steady : Prop :=
  ∀ assignment ∈ grammar.inlineLocals.1.assignments,
    LinksLead (fun _ index => ∀ place ≤ index, ∀ other, grammar.nameAt? place = some other →
      isLocal other = false) assignment.rule.references

-- Inlining moves the rules behind a local name and leaves the links.
theorem Linked.inlineLocals_iff (hnodup : grammar.names.Nodup) :
    grammar.inlineLocals.1.Linked ↔ grammar.Steady := by
  have hmoved (assignment : Assignment ω)
      (hassignment : assignment ∈ grammar.inlineLocals.1.assignments) (name : String) (index : Nat)
      (hreference : (name, some index) ∈ assignment.rule.references) :
      grammar.inlineLocals.1.StoredAt name index ↔
        ∀ place ≤ index, ∀ other, grammar.nameAt? place = some other → isLocal other = false := by
    have hplace := h.linksLead_inlineLocals grammar assignment hassignment name index hreference
    have hfilter := getElem?_filter_iff (!isLocal ·) grammar.names hnodup index name hplace
    simpa only [StoredAt, nameAt?, names_inlineLocals, Bool.not_eq_true'] using hfilter
  constructor
  · intro hlinked assignment hassignment name index hreference
    exact (hmoved assignment hassignment name index hreference).mp
      (hlinked assignment hassignment name index hreference)
  · intro hsteady assignment hassignment name index hreference
    exact (hmoved assignment hassignment name index hreference).mpr
      (hsteady assignment hassignment name index hreference)

end Grammar

end Inlining

namespace Grammar

variable [Weight ω]

-- The grammars that can be made without inlining local names that stand
-- before a linked rule.
inductive Undisturbed : Grammar ω → Prop
  | empty : Undisturbed empty
  | insert (grammar : Grammar ω) (name : String) (rule : Rule ω) (h : Undisturbed grammar) :
      Undisturbed (grammar.insert name rule).1
  | merge (grammar other : Grammar ω) (h : Undisturbed grammar) (hother : Reachable other) :
      Undisturbed (grammar.merge other).1
  | inlineLocals (grammar : Grammar ω) (h : Undisturbed grammar) (hsteady : grammar.Steady) :
      Undisturbed grammar.inlineLocals.1
  | bind (grammar : Grammar ω) (start : String) (h : Undisturbed grammar) :
      Undisturbed (grammar.bind start).1

theorem Undisturbed.reachable (grammar : Grammar ω) (h : grammar.Undisturbed) :
    grammar.Reachable := by
  induction h with
  | empty => exact .empty
  | insert grammar name rule _ ih => exact .insert grammar name rule ih
  | merge grammar other _ hother ih => exact .merge grammar other ih hother
  | inlineLocals grammar _ _ ih => exact .inlineLocals grammar ih
  | bind grammar start _ ih => exact .bind grammar start ih

theorem Undisturbed.linked (grammar : Grammar ω) (h : grammar.Undisturbed) : grammar.Linked := by
  induction h with
  | empty => exact nofun
  | insert grammar name rule _ ih => exact ih.insert grammar name rule
  | merge grammar other _ _ ih => exact ih.merge grammar other
  | inlineLocals grammar h hsteady ih =>
      exact (ih.inlineLocals_iff grammar h.reachable.settled.nodup).mpr hsteady
  | bind grammar start h ih => exact ih.bind grammar h.reachable.settled start

-- No link is ever wrong as long as no inlining moves a linked rule, and the
-- first inlining that moves one leaves a wrong link.
theorem links_lead_to_names :
    (∀ grammar : Grammar ω, grammar.Undisturbed → grammar.Linked) ∧
      ∀ grammar : Grammar ω, grammar.Reachable → grammar.Linked →
        (grammar.inlineLocals.1.Linked ↔ grammar.Steady) :=
  ⟨fun _ h => h.linked, fun grammar h hlinked => hlinked.inlineLocals_iff grammar h.settled.nodup⟩

-- Four assignments, the first of them of a local name.
def localFirst : Grammar Rat :=
  let rule (part : Part Rat) : Rule Rat := .ofChoices [Choice.empty.push part] false [] none
  let first := (empty.insert "_l" (rule (.literal "x"))).1
  let second := (first.insert "a" (rule (.reference "b" none))).1
  let third := (second.insert "b" (rule (.reference "_l" none))).1
  (third.insert "c" (rule (.literal "z"))).1

theorem undisturbed_localFirst : localFirst.Undisturbed :=
  .insert _ _ _ (.insert _ _ _ (.insert _ _ _ (.insert _ _ _ .empty)))

instance (leads : String → Nat → Prop) [∀ name index, Decidable (leads name index)]
    (references : List (String × Option Nat)) : Decidable (LinksLead leads references) :=
  decidable_of_iff
    (∀ reference ∈ references, ∀ index ∈ reference.2, leads reference.1 index)
    ⟨fun h _ index hreference => h _ hreference index rfl,
      fun h _ hreference index hindex => h _ index (hindex ▸ hreference)⟩

-- Inlined before it is bound, its link leads to the name.
theorem links_localFirst :
    localFirst.Steady ∧ localFirst.Linked ∧ localFirst.inlineLocals.1.Linked ∧
      (localFirst.inlineLocals.1.bind "a").1.Linked ∧
      ∃ assignment ∈ (localFirst.inlineLocals.1.bind "a").1.assignments,
        ("b", some 1) ∈ assignment.rule.references := by
  have hsteady : localFirst.Steady := by
    unfold Steady
    decide +kernel
  have hlinked := links_lead_to_names.1 _ undisturbed_localFirst
  exact ⟨hsteady, hlinked,
    (links_lead_to_names.2 _ undisturbed_localFirst.reachable hlinked).mpr hsteady,
    links_lead_to_names.1 _ (.bind _ _ (.inlineLocals _ undisturbed_localFirst hsteady)),
    by decide +kernel⟩

-- Bound before it is inlined, it keeps a link to what stands there now.
theorem link_misleads :
    (localFirst.bind "a").1.inlineLocals.1.Reachable ∧
      ¬ (localFirst.bind "a").1.inlineLocals.1.Linked ∧
      (∃ assignment ∈ (localFirst.bind "a").1.inlineLocals.1.assignments,
        ("b", some 2) ∈ assignment.rule.references) ∧
      (localFirst.bind "a").1.inlineLocals.1.nameAt? 2 = some "c" := by
  refine ⟨.inlineLocals _ (.bind _ _ undisturbed_localFirst.reachable), ?_, by decide +kernel,
    by decide +kernel⟩
  unfold Linked StoredAt
  decide +kernel

end Grammar

end PhraseGrammar
