import PhraseGrammar.Proofs.Binding.Walk
import PhraseGrammar.Proofs.Grammar.Descent

namespace PhraseGrammar.Grammar

variable {ω : Type}

-- One name refers to another if both are assigned, and the rule of the first
-- mentions the second anywhere.
def Refers (grammar : Grammar ω) (name other : String) : Prop :=
  ∃ rule, grammar.rule? name = some rule ∧ other ∈ rule.mentions ∧ other ∈ grammar.names

variable [Weight ω]

-- What a reference to a name is answered with, once its rule is finished.
def foundIn (grammar : Grammar ω) (finished : List (String × Rule ω)) (name : String) :
    Option (Nat × Tally ω) :=
  (grammar.indexOf? name).bind fun index =>
    (finished.lookup name).map fun rule => (index, rule.tally)

-- Finished rules, the latest first. Each of them has been bound by what stands
-- below it, and refers to nothing else.
inductive Layered (grammar : Grammar ω) : List (String × Rule ω) → Prop
  | nil : Layered grammar []
  | cons (name : String) (rule : Rule ω) (older : List (String × Rule ω))
      (hrule : grammar.rule? name = some rule) (hnew : older.lookup name = none)
      (hbelow : ∀ other ∈ rule.mentions, other ∈ grammar.names → other ∈ older.map Prod.fst)
      (holder : Layered grammar older) :
      Layered grammar
        ((name, grammar.closed rule (rule.mentions.map (grammar.foundIn older))) :: older)

variable (grammar : Grammar ω)

theorem Layered.descends (finished : List (String × Rule ω)) (h : grammar.Layered finished) :
    Descends grammar.Refers (finished.map Prod.fst) := by
  induction h with
  | nil => exact .nil
  | cons name rule older hrule hnew hbelow _ ih =>
      refine .cons name _ ((lookup_eq_none_iff older name).mp hnew) ?_ ih
      rintro other ⟨found, hfound, hmention, hother⟩
      obtain rfl : rule = found := Option.some.inj (hrule.symm.trans hfound)
      exact hbelow other hmention hother

variable {grammar} {path names : List String} {trail last : Trail ω}
  {given : List (Option (Nat × Tally ω))}

theorem Walk.reports_eq_nil (h : grammar.Walk path names trail given last)
    (hlast : last.reports = []) : trail.reports = [] := by
  induction h with
  | nil => exact hlast
  | unassigned _ _ _ _ _ _ _ _ ih => exact ih hlast
  | finished _ _ _ _ _ _ _ _ _ _ _ ih => exact ih hlast
  | cycle _ _ _ _ _ _ _ _ _ _ ih =>
      have := ih hlast
      simp at this
  | visit _ _ _ _ _ _ _ _ _ _ _ _ _ _ _ _ ihinner ihrest => exact ihinner (ihrest hlast)

theorem Walk.lookup_eq_some (h : grammar.Walk path names trail given last) (name : String)
    (rule : Rule ω) (hname : trail.finished.lookup name = some rule) :
    last.finished.lookup name = some rule := by
  induction h with
  | nil => exact hname
  | unassigned _ _ _ _ _ _ _ _ ih => exact ih hname
  | finished _ _ _ _ _ _ _ _ _ _ _ ih => exact ih hname
  | cycle _ _ _ _ _ _ _ _ _ _ ih => exact ih hname
  | visit _ other _ _ _ _ _ _ _ _ _ _ _ hfinished _ _ ihinner ihrest =>
      have hne : name ≠ other := fun he => by simp [he, hfinished] at hname
      apply ihrest
      rw [Trail.lookup_finish, if_neg hne]
      exact ihinner hname

-- A rule on the path is not finished below itself.
theorem Walk.lookup_eq_none (h : grammar.Walk path names trail given last) (name : String)
    (hpath : name ∈ path) (hname : trail.finished.lookup name = none) :
    last.finished.lookup name = none := by
  induction h with
  | nil => exact hname
  | unassigned _ _ _ _ _ _ _ _ ih => exact ih hpath hname
  | finished _ _ _ _ _ _ _ _ _ _ _ ih => exact ih hpath hname
  | cycle _ _ _ _ _ _ _ _ _ _ ih => exact ih hpath hname
  | visit _ other _ _ _ _ _ _ _ _ _ _ hother _ _ _ ihinner ihrest =>
      have hne : name ≠ other := fun he => hother (he ▸ hpath)
      apply ihrest hpath
      rw [Trail.lookup_finish, if_neg hne]
      exact ihinner (List.mem_cons_of_mem _ hpath) hname

theorem foundIn_of_indexOf?_eq_none (finished : List (String × Rule ω)) (name : String)
    (hname : grammar.indexOf? name = none) : grammar.foundIn finished name = none := by
  rw [foundIn, hname, Option.bind_none]

theorem foundIn_of_lookup (finished : List (String × Rule ω)) (name : String) (index : Nat)
    (rule : Rule ω) (hname : grammar.indexOf? name = some index)
    (hrule : finished.lookup name = some rule) :
    grammar.foundIn finished name = some (index, rule.tally) := by
  rw [foundIn, hname, Option.bind_some, hrule, Option.map_some]

-- Without a report every assigned reference has led to a finished rule.
theorem Walk.given_eq (h : grammar.Walk path names trail given last) (hlast : last.reports = []) :
    given = names.map (grammar.foundIn last.finished) ∧
      ∀ name ∈ names, name ∈ grammar.names → name ∈ last.names := by
  induction h with
  | nil => simp
  | unassigned _ name _ _ _ _ hname _ ih =>
      obtain ⟨hgiven, hmem⟩ := ih hlast
      have hnot := (grammar.indexOf?_eq_none_iff name).mp hname
      rw [List.map_cons, foundIn_of_indexOf?_eq_none _ _ hname, ← hgiven]
      exact ⟨rfl, List.forall_mem_cons.mpr ⟨fun hm => absurd hm hnot, hmem⟩⟩
  | finished _ name _ _ last _ index rule hname hfinished hrest ih =>
      obtain ⟨hgiven, hmem⟩ := ih hlast
      have hstays := hrest.lookup_eq_some name rule hfinished
      rw [List.map_cons, foundIn_of_lookup _ _ _ _ hname hstays, ← hgiven]
      exact ⟨rfl, List.forall_mem_cons.mpr
        ⟨fun _ => mem_names_of_lookup _ _ _ hstays, hmem⟩⟩
  | cycle _ _ _ _ _ _ _ _ _ hrest _ =>
      have := hrest.reports_eq_nil hlast
      simp at this
  | visit _ name _ _ middle last _ _ index rule hname _ _ _ _ hrest _ ih =>
      obtain ⟨hgiven, hmem⟩ := ih hlast
      have hstays := hrest.lookup_eq_some name _ (by rw [middle.lookup_finish, if_pos rfl])
      rw [List.map_cons, foundIn_of_lookup _ _ _ _ hname hstays, ← hgiven]
      exact ⟨rfl, List.forall_mem_cons.mpr
        ⟨fun _ => mem_names_of_lookup _ _ _ hstays, hmem⟩⟩

-- A walk without a report adds layers.
theorem Walk.layered (h : grammar.Walk path names trail given last) (hlast : last.reports = [])
    (hpath : ∀ name ∈ path, trail.finished.lookup name = none)
    (htrail : grammar.Layered trail.finished) : grammar.Layered last.finished := by
  induction h with
  | nil => exact htrail
  | unassigned _ _ _ _ _ _ _ _ ih => exact ih hlast hpath htrail
  | finished _ _ _ _ _ _ _ _ _ _ _ ih => exact ih hlast hpath htrail
  | cycle _ _ _ _ _ _ _ _ _ _ ih => exact ih hlast hpath htrail
  | visit path name _ trail middle _ _ _ _ rule _ hrule hnot hfinished hinner hrest ihinner
      ihrest =>
      have hmiddle := hrest.reports_eq_nil hlast
      -- The name is on the path of its own visit, so it is finished only now.
      have hopen : ∀ above ∈ name :: path, trail.finished.lookup above = none :=
        List.forall_mem_cons.mpr ⟨hfinished, hpath⟩
      obtain ⟨hgiven, hmem⟩ := hinner.given_eq hmiddle
      refine ihrest hlast ?_ ?_
      · intro above habove
        have hne : above ≠ name := fun he => hnot (he ▸ habove)
        rw [middle.lookup_finish, if_neg hne]
        exact hinner.lookup_eq_none above (List.mem_cons_of_mem _ habove) (hpath above habove)
      · rw [hgiven]
        exact .cons name rule middle.finished hrule
          (hinner.lookup_eq_none name List.mem_cons_self hfinished) hmem
          (ihinner hmiddle hopen htrail)

-- A report names a rule that leads back to itself. Every reference that is
-- walked along can be reached, and every rule on the path leads to it.
theorem Walk.reports_cycle (h : grammar.Walk path names trail given last) (start : String)
    (hreach : ∀ name ∈ names, name ∈ grammar.names →
      Relation.ReflTransGen grammar.Refers start name)
    (hpath : ∀ name ∈ names, name ∈ grammar.names → ∀ above ∈ path,
      Relation.TransGen grammar.Refers above name)
    (report : Diagnostic) (hreport : report ∈ last.reports) :
    report ∈ trail.reports ∨ ∃ name, report = .recursiveExpansion name ∧
      Relation.ReflTransGen grammar.Refers start name ∧
      Relation.TransGen grammar.Refers name name := by
  induction h with
  | nil => exact .inl hreport
  | unassigned _ _ _ _ _ _ _ _ ih =>
      exact ih (fun name hm => hreach name (List.mem_cons_of_mem _ hm))
        (fun name hm => hpath name (List.mem_cons_of_mem _ hm)) hreport
  | finished _ _ _ _ _ _ _ _ _ _ _ ih =>
      exact ih (fun name hm => hreach name (List.mem_cons_of_mem _ hm))
        (fun name hm => hpath name (List.mem_cons_of_mem _ hm)) hreport
  | cycle _ name _ trail _ _ index hname habove _ ih =>
      have hassigned := grammar.mem_names_of_indexOf? name index hname
      have h := ih (fun name hm => hreach name (List.mem_cons_of_mem _ hm))
        (fun name hm => hpath name (List.mem_cons_of_mem _ hm)) hreport
      simp only [Trail.reports_report, List.mem_append, List.mem_singleton, or_assoc] at h
      refine h.imp_right fun h => h.elim (fun he => ⟨name, he, ?_, ?_⟩) id
      · exact hreach name List.mem_cons_self hassigned
      · exact hpath name List.mem_cons_self hassigned name habove
  | visit path name _ _ _ _ _ _ index rule hname hrule _ _ _ _ ihinner ihrest =>
      have hassigned := grammar.mem_names_of_indexOf? name index hname
      have hstep (other : String) (hm : other ∈ rule.mentions) (ho : other ∈ grammar.names) :
          grammar.Refers name other := ⟨rule, hrule, hm, ho⟩
      have h := ihrest (fun name hm => hreach name (List.mem_cons_of_mem _ hm))
        (fun name hm => hpath name (List.mem_cons_of_mem _ hm)) hreport
      refine h.elim (fun h => ihinner ?_ ?_ h) .inr
      · intro other hm ho
        exact (hreach name List.mem_cons_self hassigned).tail (hstep other hm ho)
      · intro other hm ho above habove
        rcases List.mem_cons.mp habove with rfl | habove
        · exact .single (hstep other hm ho)
        · exact (hpath name List.mem_cons_self hassigned above habove).tail (hstep other hm ho)

end PhraseGrammar.Grammar
