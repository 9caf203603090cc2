import PhraseGrammar.Proofs.Binding.Outcome

namespace PhraseGrammar

variable {ω : Type} [Weight ω]

theorem Rule.boundBy_marked (rule : Rule ω) (mark : Mark)
    (find : String → Option (Nat × Tally ω)) :
    (rule.marked mark).boundBy find = (rule.boundBy find).marked mark := by
  cases rule
  rfl

namespace Grammar

-- What a name leads to, as a bound grammar has it.
def found (grammar : Grammar ω) (name : String) : Option (Nat × Tally ω) :=
  (grammar.indexOf? name).bind fun index =>
    (grammar.rule? name).map fun rule => (index, rule.tally)

-- Names in an order, the latest first, with rules that binding again would not
-- change. Each rule refers to older names only.
inductive Stacked (grammar : Grammar ω) : List String → Prop
  | nil : Stacked grammar []
  | cons (name : String) (rule : Rule ω) (older : List String)
      (hrule : grammar.rule? name = some rule) (hbound : rule.boundBy grammar.found = rule)
      (hnew : name ∉ older)
      (hbelow : ∀ other ∈ rule.mentions, other ∈ grammar.names → other ∈ older)
      (holder : Stacked grammar older) : Stacked grammar (name :: older)

variable (grammar : Grammar ω)

theorem fst_found (name : String) : (grammar.found name).map Prod.fst = grammar.indexOf? name := by
  cases hname : grammar.indexOf? name with
  | none => simp only [found, hname, Option.bind_none, Option.map_none]
  | some index =>
      obtain ⟨rule, _, hrule⟩ := grammar.exists_ruleAt?_of_indexOf? name index hname
      simp only [found, hname, hrule, Option.bind_some, Option.map_some]

variable {grammar}

theorem Stacked.descends (order : List String) (h : grammar.Stacked order) :
    Descends grammar.Refers order := by
  induction h with
  | nil => exact .nil
  | cons name rule older hrule _ hnew hbelow _ ih =>
      refine .cons name older hnew ?_ ih
      rintro other ⟨again, hagain, hmention, hother⟩
      obtain rfl : rule = again := Option.some.inj (hrule.symm.trans hagain)
      exact hbelow other hmention hother

theorem Stacked.mem_names (order : List String) (h : grammar.Stacked order) :
    ∀ name ∈ order, name ∈ grammar.names := by
  induction h with
  | nil => simp
  | cons name rule older hrule _ _ _ _ ih =>
      refine List.forall_mem_cons.mpr ⟨?_, ih⟩
      by_contra hname
      simp [(grammar.rule?_eq_none_iff name).mpr hname] at hrule

theorem Stacked.boundBy_found (order : List String) (h : grammar.Stacked order) (name : String)
    (hname : name ∈ order) (rule : Rule ω) (hrule : grammar.rule? name = some rule) :
    rule.boundBy grammar.found = rule := by
  induction h with
  | nil => simp at hname
  | cons first own older hown hbound _ _ _ ih =>
      rcases List.mem_cons.mp hname with rfl | hname
      · obtain rfl : own = rule := Option.some.inj (hown.symm.trans hrule)
        exact hbound
      · exact ih hname

-- In a stack every reference is linked to where its name is assigned.
theorem Stacked.link_eq (order : List String) (h : grammar.Stacked order) (name : String)
    (hname : name ∈ order) (rule : Rule ω) (hrule : grammar.rule? name = some rule) :
    ∀ reference ∈ rule.references, reference.2 = grammar.indexOf? reference.1 := by
  intro reference hreference
  rw [← h.boundBy_found order name hname rule hrule, Rule.references_boundBy] at hreference
  obtain ⟨other, _, rfl⟩ := List.mem_map.mp hreference
  exact grammar.fst_found other

-- What the rule on top is linked to lies below it.
theorem Stacked.mem_of_link (name : String) (older : List String)
    (h : grammar.Stacked (name :: older)) (rule : Rule ω) (hrule : grammar.rule? name = some rule)
    (other : String) (place : Nat) (hreference : (other, some place) ∈ rule.references) :
    other ∈ older ∧ grammar.indexOf? other = some place := by
  have hplace : grammar.indexOf? other = some place :=
    (h.link_eq _ name List.mem_cons_self rule hrule _ hreference).symm
  cases h with
  | cons _ own _ hown _ _ hbelow _ =>
      obtain rfl : own = rule := Option.some.inj (hown.symm.trans hrule)
      exact ⟨hbelow other (List.mem_map_of_mem hreference)
        (grammar.mem_names_of_indexOf? other place hplace), hplace⟩

theorem Stacked.length_table (order : List String) (h : grammar.Stacked order) (name : String)
    (hname : name ∈ order) (rule : Rule ω) (hrule : grammar.rule? name = some rule) :
    ∀ inner ∈ rule.nested, inner.table.length = inner.choices.length := by
  rw [← h.boundBy_found order name hname rule hrule]
  exact rule.length_table_bound _ _

theorem Stacked.length_le (order : List String) (h : grammar.Stacked order) :
    order.length ≤ grammar.assignments.length := by
  have hle := (h.descends.nodup.subperm (h.mem_names order)).length_le
  rwa [grammar.length_names] at hle

variable (grammar)

-- Layers that have been put into place are a stack. What a rule has been bound
-- by is still found there, as each name is finished once.
theorem Layered.stacked (finished : List (String × Rule ω)) (h : grammar.Layered finished)
    (bound : Grammar ω) (hnames : bound.names = grammar.names)
    (hrules : ∀ name rule, finished.lookup name = some rule → bound.rule? name = some rule) :
    bound.Stacked (finished.map Prod.fst) := by
  have hindex (name : String) : bound.indexOf? name = grammar.indexOf? name := by
    rw [indexOf?, hnames, indexOf?]
  induction h with
  | nil => exact .nil
  | cons name rule older hrule hnew hbelow holder ih =>
      have hfirst := (lookup_eq_none_iff older name).mp hnew
      have holders (other : String) (found : Rule ω) (hother : older.lookup other = some found) :
          bound.rule? other = some found := by
        have hne : other ≠ name := fun he => by simp [he, hnew] at hother
        refine hrules other found ?_
        rw [List.lookup_cons, beq_eq_false_iff_ne.mpr hne]
        exact hother
      have hfind : ∀ other ∈ rule.mentions, grammar.foundIn older other = bound.found other := by
        intro other hmention
        cases hother : grammar.indexOf? other with
        | none => simp only [foundIn, found, hindex, hother, Option.bind_none]
        | some index =>
            have hmem := hbelow other hmention (grammar.mem_names_of_indexOf? other index hother)
            cases hlookup : older.lookup other with
            | none => exact absurd hmem ((lookup_eq_none_iff older other).mp hlookup)
            | some below =>
                simp only [foundIn, found, hindex, hother, hlookup, holders other below hlookup,
                  Option.bind_some, Option.map_some]
      -- So binding by the layers below is binding by the grammar they are put into.
      have hclosed : grammar.closed rule (rule.mentions.map (grammar.foundIn older)) =
          (rule.boundBy bound.found).marked (.bound grammar.passes) := by
        rw [closed, rule.answered_map, rule.boundBy_congr _ _ hfind]
      rw [hclosed] at hrules
      refine .cons name _ _ (hrules name _ List.lookup_cons_self) ?_ hfirst ?_ (ih holders)
      · rw [Rule.boundBy_marked, Rule.boundBy_boundBy]
      · simpa [hnames] using hbelow

-- Whatever a rule was closed with, binding it again binds the rule that it
-- was made of.
theorem boundBy_closed (rule : Rule ω) (given : List (Option (Nat × Tally ω)))
    (find : String → Option (Nat × Tally ω)) :
    (grammar.closed rule given).boundBy find =
      (rule.boundBy find).marked (.bound grammar.passes) := by
  have hagain : (rule.answered given).boundBy find = rule.boundBy find :=
    congrArg Prod.fst (rule.bound_bound _ _ _ _)
  rw [closed, Rule.boundBy_marked, hagain]

theorem Layered.exists_closed (finished : List (String × Rule ω)) (h : grammar.Layered finished)
    (name : String) (bound : Rule ω) (hname : finished.lookup name = some bound) :
    ∃ rule given, grammar.rule? name = some rule ∧ bound = grammar.closed rule given := by
  induction h with
  | nil => simp at hname
  | cons first rule older hrule _ _ _ ih =>
      rw [List.lookup_cons] at hname
      split at hname
      · rename_i he
        cases hname
        exact ⟨rule, _, eq_of_beq he ▸ hrule, rfl⟩
      · exact ih hname

omit [Weight ω] in
theorem rule?_of_adopt (finished : List (String × Rule ω)) (bound : Grammar ω)
    (h : bound.assignments = grammar.adopt finished) (name : String) :
    bound.rule? name =
      (grammar.rule? name).map fun rule => (finished.lookup name).getD rule := by
  have hnames : bound.names = grammar.names := by
    rw [Grammar.names, h, names_adopt]
  have hindex : bound.indexOf? name = grammar.indexOf? name := by
    rw [indexOf?, hnames, indexOf?]
  cases hname : grammar.indexOf? name with
  | none => simp only [rule?, hindex, hname, Option.bind_none, Option.map_none]
  | some index =>
      have hat := grammar.nameAt?_of_indexOf? name index hname
      obtain ⟨assignment, hassignment, rfl⟩ : ∃ assignment : Assignment ω,
          grammar.assignments[index]? = some assignment ∧ assignment.name = name := by
        simpa [nameAt?, Grammar.names] using hat
      simp only [rule?, hindex, hname, ruleAt?, h, adopt, List.getElem?_map, hassignment,
        Option.bind_some, Option.map_some]

-- Rules that have been put into place are those of the grammar, bound by what
-- stands in place.
theorem Layered.rule?_of_adopt (finished : List (String × Rule ω)) (h : grammar.Layered finished)
    (bound : Grammar ω) (hbound : bound.assignments = grammar.adopt finished) :
    bound.Stacked (finished.map Prod.fst) ∧
      ∀ name ∈ finished.map Prod.fst, ∃ rule, grammar.rule? name = some rule ∧
        bound.rule? name = some ((rule.boundBy bound.found).marked (.bound grammar.passes)) := by
  have hnames : bound.names = grammar.names := by
    rw [Grammar.names, hbound, names_adopt]
  have hput (name : String) (rule : Rule ω) (hname : finished.lookup name = some rule) :
      bound.rule? name = some rule := by
    obtain ⟨old, given, hold, rfl⟩ := h.exists_closed grammar finished name rule hname
    rw [grammar.rule?_of_adopt finished bound hbound, hold, hname, Option.map_some,
      Option.getD_some]
  have hstack := h.stacked grammar finished bound hnames hput
  refine ⟨hstack, fun name hname => ?_⟩
  cases hlookup : finished.lookup name with
  | none => exact absurd hname ((lookup_eq_none_iff finished name).mp hlookup)
  | some rule =>
      have hrule := hput name rule hlookup
      have hfixed := hstack.boundBy_found _ name hname rule hrule
      obtain ⟨old, given, hold, rfl⟩ := h.exists_closed grammar finished name rule hlookup
      rw [boundBy_closed] at hfixed
      exact ⟨old, hold, hfixed ▸ hrule⟩

-- What a successful binding makes: a stack that has the start in it. The rules
-- of the stack are those of the grammar, bound by what the stack holds.
theorem exists_stack (h : grammar.Settled) (start : String) (index : Nat)
    (hbind : (grammar.bind start).1.start = some index) :
    grammar.indexOf? start = some index ∧
    ∃ order, (grammar.bind start).1.Stacked order ∧ Descends grammar.Refers order ∧
      start ∈ order ∧ ∀ name ∈ order, ∃ rule mark, grammar.rule? name = some rule ∧
        (grammar.bind start).1.rule? name =
          some ((rule.boundBy (grammar.bind start).1.found).marked mark) := by
  cases hstart : grammar.indexOf? start with
  | none => simp [bind, hstart] at hbind
  | some place =>
      obtain ⟨given, last, hwalk, hbound⟩ := grammar.bind_walk h start place hstart
      have hassignments : (grammar.bind start).1.assignments =
          grammar.nextPass.adopt last.finished := by rw [hbound]
      have hnone : last.reports = [] := by
        by_contra hne
        simp [hbound, hne] at hbind
      obtain rfl : place = index := by simpa [hbound, hnone] using hbind
      have hassigned : start ∈ grammar.nextPass.names :=
        grammar.names_nextPass ▸ grammar.mem_names_of_indexOf? start place hstart
      have hmem := (hwalk.given_eq hnone).2 start List.mem_cons_self hassigned
      have hlayers := hwalk.layered hnone (by simp) .nil
      obtain ⟨hstack, hrules⟩ := hlayers.rule?_of_adopt _ _ _ hassignments
      have hdescends := grammar.refers_nextPass ▸ hlayers.descends
      refine ⟨rfl, _, hstack, hdescends, hmem, fun name hname => ?_⟩
      obtain ⟨rule, hrule, hput⟩ := hrules name hname
      rw [rule?_nextPass] at hrule
      obtain ⟨old, hold, rfl⟩ := Option.map_eq_some_iff.mp hrule
      rw [Rule.boundBy_marked, Rule.marked_marked] at hput
      exact ⟨old, _, hold, hput⟩

end Grammar

end PhraseGrammar
