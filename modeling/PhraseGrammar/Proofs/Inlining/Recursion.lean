import PhraseGrammar.Proofs.Binding.Recursion
import PhraseGrammar.Proofs.Inlining.Outcome

namespace PhraseGrammar.Grammar

variable {ω : Type} {grammar inlined : Grammar ω} {resolved : List (String × Rule ω)}

theorem Inlining.mem_names_iff (h : grammar.Inlining inlined resolved) (name : String) :
    name ∈ inlined.names ↔ name ∈ grammar.names ∧ ¬ isLocal name := by
  rw [h.names, List.mem_filter, Bool.not_eq_true', Bool.not_eq_true]

-- What a name that is mentioned in a rule leads to after inlining: the name
-- itself, or what its resolved rule mentions.
def Leads (inlined : Grammar ω) (resolved : List (String × Rule ω)) (good : String → Prop)
    (name : String) : Prop :=
  if isLocal name then
    ∃ rule, resolvedIn resolved name = some rule ∧
      ∀ other ∈ rule.mentions, other ∈ inlined.names → good other
  else good name

-- If what a rule mentions after inlining is good, then all that it mentions
-- before leads to good names.
theorem Inlining.leads (h : grammar.Inlining inlined resolved) (good : String → Prop)
    (rule : Rule ω) (hlocals : ∀ other ∈ rule.locals, (resolvedIn resolved other).isSome)
    (hgood : ∀ other ∈ (rule.inlinedBy (resolvedIn resolved)).mentions, other ∈ inlined.names →
      good other)
    (name : String) (hname : name ∈ rule.mentions) (hassigned : name ∈ grammar.names) :
    Leads inlined resolved good name := by
  unfold Leads
  split
  · rename_i hlocal
    have hmem : name ∈ rule.locals := List.mem_filter.mpr ⟨hname, hlocal⟩
    obtain ⟨inner, hinner⟩ := Option.isSome_iff_exists.mp (hlocals name hmem)
    exact ⟨inner, hinner, fun other hother =>
      hgood other (rule.mentions_subset_inlinedBy _ name hname hlocal inner hinner hother)⟩
  · rename_i hlocal
    exact hgood name (rule.mem_mentions_inlinedBy _ name hname hlocal)
      ((h.mem_names_iff name).mpr ⟨hassigned, hlocal⟩)

-- One name refers to another, which is local.
def RefersLocally (grammar : Grammar ω) (name other : String) : Prop :=
  isLocal other ∧ grammar.Refers name other

theorem Inlined.descends (h : grammar.Inlined resolved) :
    Descends grammar.RefersLocally (resolved.map Prod.fst) := by
  induction h with
  | nil => exact .nil
  | cons name rule older _ hrule hnew hbelow _ ih =>
      refine .cons name _ ((lookup_eq_none_iff older name).mp hnew) ?_ ih
      rintro other ⟨hlocal, found, hfound, hmention, _⟩
      obtain rfl : rule = found := Option.some.inj (hrule.symm.trans hfound)
      obtain ⟨inner, hinner⟩ := Option.isSome_iff_exists.mp
        (hbelow other (List.mem_filter.mpr ⟨hmention, hlocal⟩))
      exact mem_names_of_lookup _ _ _ hinner

-- A local name is grounded if what its resolved rule mentions is. References
-- from local names to local names are followed down the layers.
theorem Inlining.grounded_of_resolved (h : grammar.Inlining inlined resolved) (name : String)
    (rule : Rule ω) (hname : resolvedIn resolved name = some rule)
    (hgood : ∀ other ∈ rule.mentions, other ∈ inlined.names → grammar.Grounded other) :
    grammar.Grounded name := by
  have hacc : Acc (fun next last => grammar.RefersLocally last next) name :=
    h.layers.descends.acc _ name (mem_names_of_lookup _ _ _ hname)
  induction hacc generalizing rule with
  | intro name _ ih =>
      obtain ⟨own, hown, rfl, hlocals⟩ := h.layers.exists_rule name rule hname
      refine .intro name fun other hrefers => ?_
      obtain ⟨found, hfound, hmention, hassigned⟩ := hrefers
      obtain rfl : own = found := Option.some.inj (hown.symm.trans hfound)
      have hleads := h.leads grammar.Grounded own hlocals hgood other hmention hassigned
      unfold Leads at hleads
      split at hleads
      · obtain ⟨inner, hinner, hall⟩ := hleads
        exact ih other ⟨‹_›, own, hown, hmention, hassigned⟩ inner hinner hall
      · exact hleads

theorem Inlining.grounded (h : grammar.Inlining inlined resolved) (name : String)
    (hname : ¬ isLocal name) (hgrounded : inlined.Grounded name) : grammar.Grounded name := by
  induction hgrounded with
  | intro name _ ih =>
      refine .intro name fun other hrefers => ?_
      obtain ⟨rule, hrule, hmention, hassigned⟩ := hrefers
      have hinlined : inlined.rule? name = some (rule.inlinedBy (resolvedIn resolved)) := by
        rw [h.rules name hname, hrule, Option.map_some]
      have hgood : ∀ next ∈ (rule.inlinedBy (resolvedIn resolved)).mentions,
          next ∈ inlined.names → grammar.Grounded next := fun next hnext hassigned =>
        ih next ⟨_, hinlined, hnext, hassigned⟩ ((h.mem_names_iff next).mp hassigned).2
      have hleads := h.leads grammar.Grounded rule (h.locals name rule hname hrule) hgood other
        hmention hassigned
      unfold Leads at hleads
      split at hleads
      · obtain ⟨inner, hinner, hall⟩ := hleads
        exact h.grounded_of_resolved other inner hinner hall
      · exact hleads

-- What a resolved rule mentions can be reached from its name.
theorem Inlining.reaches_of_resolved (h : grammar.Inlining inlined resolved) (name : String)
    (rule : Rule ω) (hname : resolvedIn resolved name = some rule) (other : String)
    (hother : other ∈ rule.mentions) (hassigned : other ∈ grammar.names) :
    Relation.TransGen grammar.Refers name other := by
  have hacc : Acc (fun next last => grammar.RefersLocally last next) name :=
    h.layers.descends.acc _ name (mem_names_of_lookup _ _ _ hname)
  induction hacc generalizing rule with
  | intro name _ ih =>
      obtain ⟨own, hown, rfl, _⟩ := h.layers.exists_rule name rule hname
      rcases own.mem_mentions_of_inlinedBy _ other hother with hmention | hmention
      · exact .single ⟨own, hown, hmention, hassigned⟩
      · obtain ⟨next, inner, hnext, hlocal, hinner, hdeep⟩ := hmention
        obtain ⟨found, hfound, _⟩ := h.layers.exists_rule next inner hinner
        have hstep : grammar.Refers name next :=
          ⟨own, hown, hnext, grammar.mem_names_of_rule? next found hfound⟩
        exact .head hstep (ih next ⟨hlocal, hstep⟩ inner hinner hdeep)

-- A reference of an inlined rule leads along references of the grammar.
theorem Inlining.reaches (h : grammar.Inlining inlined resolved) (name other : String)
    (hname : ¬ isLocal name) (hrefers : inlined.Refers name other) :
    Relation.TransGen grammar.Refers name other := by
  obtain ⟨rule, hrule, hmention, hassigned⟩ := hrefers
  rw [h.rules name hname] at hrule
  obtain ⟨own, hown, rfl⟩ := Option.map_eq_some_iff.mp hrule
  have hother := ((h.mem_names_iff other).mp hassigned).1
  rcases own.mem_mentions_of_inlinedBy _ other hmention with hmention | hmention
  · exact .single ⟨own, hown, hmention, hother⟩
  · obtain ⟨next, inner, hnext, _, hinner, hdeep⟩ := hmention
    obtain ⟨found, hfound, _⟩ := h.layers.exists_rule next inner hinner
    exact .head ⟨own, hown, hnext, grammar.mem_names_of_rule? next found hfound⟩
      (h.reaches_of_resolved next inner hinner other hdeep hother)

-- Inlining neither makes nor removes recursion.
theorem Inlining.grounded_iff (h : grammar.Inlining inlined resolved) (name : String)
    (hname : ¬ isLocal name) : inlined.Grounded name ↔ grammar.Grounded name := by
  refine ⟨h.grounded name hname, fun hgrounded => ?_⟩
  have hacc := hgrounded.transGen
  induction hacc with
  | intro name _ ih =>
      refine .intro name fun other hrefers => ?_
      have hback := (h.reaches name other hname hrefers).swap
      obtain ⟨_, _, _, hassigned⟩ := hrefers
      exact ih other hback ((h.mem_names_iff other).mp hassigned).2
        (hgrounded.inv_of_transGen hback)

end PhraseGrammar.Grammar
