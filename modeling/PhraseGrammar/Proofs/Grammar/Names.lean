import Mathlib.Data.List.Perm.Subperm
import PhraseGrammar.Grammar.Basic

namespace PhraseGrammar

section Lookup

variable {α : Type} (entries : List (String × α)) (name : String)

theorem lookup_eq_none_iff :
    entries.lookup name = none ↔ name ∉ entries.map Prod.fst := by
  simp only [List.lookup_eq_none_iff, List.mem_map, Prod.exists, exists_and_right, exists_eq_right,
    not_exists, bne_iff_ne, Prod.forall]
  exact ⟨fun h value hm => h name value hm rfl, fun h other value hm he => h value (he ▸ hm)⟩

theorem mem_of_lookup (value : α) (h : entries.lookup name = some value) :
    (name, value) ∈ entries := by
  obtain ⟨before, after, rfl, _⟩ := List.lookup_eq_some_iff.mp h
  exact List.mem_append_right _ List.mem_cons_self

theorem mem_names_of_lookup (value : α) (h : entries.lookup name = some value) :
    name ∈ entries.map Prod.fst :=
  List.mem_map_of_mem (mem_of_lookup entries name value h)

end Lookup

namespace Grammar

variable {ω : Type}

@[simp] theorem indexOf?_eq_none_iff (grammar : Grammar ω) (name : String) :
    grammar.indexOf? name = none ↔ name ∉ grammar.names := by
  simp only [indexOf?, List.findIdx?_eq_none_iff, beq_eq_false_iff_ne]
  exact ⟨fun h hm => h name hm rfl, fun h other hm he => h (he ▸ hm)⟩

theorem exists_indexOf? (grammar : Grammar ω) (name : String) (h : name ∈ grammar.names) :
    ∃ index, grammar.indexOf? name = some index := by
  cases hi : grammar.indexOf? name with
  | none => exact absurd h ((grammar.indexOf?_eq_none_iff name).mp hi)
  | some index => exact ⟨index, rfl⟩

@[simp] theorem isSome_indexOf?_iff (grammar : Grammar ω) (name : String) :
    (grammar.indexOf? name).isSome ↔ name ∈ grammar.names := by
  rw [← not_iff_not, ← grammar.indexOf?_eq_none_iff, Option.not_isSome_iff_eq_none]

theorem nameAt?_of_indexOf? (grammar : Grammar ω) (name : String) (index : Nat)
    (h : grammar.indexOf? name = some index) : grammar.nameAt? index = some name := by
  obtain ⟨hlt, hname, _⟩ := List.findIdx?_eq_some_iff_getElem.mp h
  rw [nameAt?, List.getElem?_eq_getElem hlt, eq_of_beq hname]

theorem mem_names_of_indexOf? (grammar : Grammar ω) (name : String) (index : Nat)
    (h : grammar.indexOf? name = some index) : name ∈ grammar.names :=
  List.mem_of_getElem? (grammar.nameAt?_of_indexOf? name index h)

-- In a list without repetitions a name has one place.
theorem indexOf?_of_nameAt? (grammar : Grammar ω) (hn : grammar.names.Nodup) (name : String)
    (index : Nat) (h : grammar.nameAt? index = some name) : grammar.indexOf? name = some index := by
  obtain ⟨other, ho⟩ := grammar.exists_indexOf? name (List.mem_of_getElem? h)
  have hsame := (grammar.nameAt?_of_indexOf? name other ho).trans h.symm
  have hlt : other < grammar.names.length := by
    obtain ⟨hlt, _⟩ := List.findIdx?_eq_some_iff_getElem.mp ho
    exact hlt
  rw [ho, (List.getElem?_inj hlt hn).mp hsame]

theorem indexOf?_inj (grammar : Grammar ω) (name other : String) (index : Nat)
    (h : grammar.indexOf? name = some index) (ho : grammar.indexOf? other = some index) :
    name = other := by
  have he := (grammar.nameAt?_of_indexOf? name index h).symm.trans
    (grammar.nameAt?_of_indexOf? other index ho)
  exact Option.some.inj he

@[simp] theorem length_names (grammar : Grammar ω) :
    grammar.names.length = grammar.assignments.length :=
  List.length_map _

theorem lt_length_of_indexOf? (grammar : Grammar ω) (name : String) (index : Nat)
    (h : grammar.indexOf? name = some index) : index < grammar.assignments.length := by
  obtain ⟨hlt, _⟩ := List.findIdx?_eq_some_iff_getElem.mp h
  exact grammar.length_names ▸ hlt

theorem exists_ruleAt?_of_indexOf? (grammar : Grammar ω) (name : String) (index : Nat)
    (h : grammar.indexOf? name = some index) :
    ∃ rule, grammar.ruleAt? index = some rule ∧ grammar.rule? name = some rule := by
  have hlt := grammar.lt_length_of_indexOf? name index h
  refine ⟨grammar.assignments[index].rule, ?_, ?_⟩
  · rw [ruleAt?, List.getElem?_eq_getElem hlt, Option.map_some]
  · rw [rule?, h, Option.bind_some, ruleAt?, List.getElem?_eq_getElem hlt, Option.map_some]

theorem rule?_eq_ruleAt? (grammar : Grammar ω) (name : String) (index : Nat)
    (h : grammar.indexOf? name = some index) : grammar.rule? name = grammar.ruleAt? index := by
  rw [rule?, h, Option.bind_some]

theorem rule?_eq_find? (grammar : Grammar ω) (name : String) :
    grammar.rule? name = (grammar.assignments.find? (·.name == name)).map Assignment.rule := by
  have hindex : grammar.indexOf? name = grammar.assignments.findIdx? (·.name == name) := by
    rw [indexOf?, names, List.findIdx?_map]
    rfl
  cases hfind : grammar.assignments.findIdx? (·.name == name) with
  | none =>
      have hnone : grammar.assignments.find? (·.name == name) = none :=
        List.find?_eq_none.mpr fun assignment hm =>
          Bool.eq_false_iff.mp (List.findIdx?_eq_none_iff.mp hfind assignment hm)
      rw [rule?, hindex, hfind, hnone, Option.bind_none, Option.map_none]
  | some index =>
      obtain ⟨hlt, hname, hbefore⟩ := List.findIdx?_eq_some_iff_getElem.mp hfind
      have hsome : grammar.assignments.find? (·.name == name) = some grammar.assignments[index] :=
        List.find?_eq_some_iff_getElem.mpr ⟨hname, index, hlt, rfl, fun other ho => by
          simpa using hbefore other ho⟩
      rw [rule?, hindex, hfind, hsome, Option.bind_some, ruleAt?, List.getElem?_eq_getElem hlt]

@[simp] theorem rule?_eq_none_iff (grammar : Grammar ω) (name : String) :
    grammar.rule? name = none ↔ name ∉ grammar.names := by
  rw [← grammar.indexOf?_eq_none_iff]
  cases hi : grammar.indexOf? name with
  | none => simp only [rule?, hi, Option.bind_none]
  | some index =>
      obtain ⟨rule, _, hr⟩ := grammar.exists_ruleAt?_of_indexOf? name index hi
      simp only [hr, reduceCtorEq]

theorem mem_of_rule? (grammar : Grammar ω) (name : String) (rule : Rule ω)
    (hrule : grammar.rule? name = some rule) : ⟨name, rule⟩ ∈ grammar.assignments := by
  rw [rule?_eq_find?] at hrule
  obtain ⟨assignment, hfound, rfl⟩ := Option.map_eq_some_iff.mp hrule
  obtain rfl : assignment.name = name := by simpa using List.find?_some hfound
  exact List.mem_of_find?_eq_some hfound

-- In a list without repetitions a name has one rule.
theorem rule?_eq_some_iff (grammar : Grammar ω) (hn : grammar.names.Nodup) (name : String)
    (rule : Rule ω) : grammar.rule? name = some rule ↔ ⟨name, rule⟩ ∈ grammar.assignments := by
  constructor
  · exact grammar.mem_of_rule? name rule
  · intro hmem
    obtain ⟨index, hindex⟩ := List.mem_iff_getElem?.mp hmem
    have hname : grammar.nameAt? index = some name := by
      rw [nameAt?, names, List.getElem?_map, hindex, Option.map_some]
    rw [grammar.rule?_eq_ruleAt? name index (grammar.indexOf?_of_nameAt? hn name index hname),
      ruleAt?, hindex, Option.map_some]

-- The order of the assignments does not matter to what is assigned.
theorem rule?_perm (grammar other : Grammar ω) (hn : grammar.names.Nodup)
    (hperm : grammar.assignments.Perm other.assignments) (name : String) :
    grammar.rule? name = other.rule? name := by
  have hn' : other.names.Nodup := (hperm.map Assignment.name).nodup_iff.mp hn
  apply Option.ext
  intro rule
  rw [grammar.rule?_eq_some_iff hn, other.rule?_eq_some_iff hn', hperm.mem_iff]

theorem rule?_insert_of_ne (grammar : Grammar ω) (added : String) (rule : Rule ω) (name : String)
    (hne : name ≠ added) : (grammar.insert added rule).1.rule? name = grammar.rule? name := by
  rw [rule?_eq_find?, rule?_eq_find?]
  cases hadded : grammar.indexOf? added with
  | some index => simp only [insert, hadded]
  | none =>
      simp only [insert, hadded, List.find?_append, List.find?_cons, List.find?_nil,
        beq_eq_false_iff_ne.mpr hne.symm, Option.or_none]

theorem insert_of_mem (grammar : Grammar ω) (name : String) (rule : Rule ω)
    (h : name ∈ grammar.names) :
    grammar.insert name rule = ({ grammar with start := none }, some (.duplicate name)) := by
  obtain ⟨index, hindex⟩ := grammar.exists_indexOf? name h
  rw [insert, hindex]

theorem insert_of_not_mem (grammar : Grammar ω) (name : String) (rule : Rule ω)
    (h : name ∉ grammar.names) :
    grammar.insert name rule =
      ({ grammar with
        assignments := grammar.assignments ++ [⟨name, rule.unlinked⟩], start := none }, none) := by
  rw [insert, (grammar.indexOf?_eq_none_iff name).mpr h]

theorem mem_names_of_rule? (grammar : Grammar ω) (name : String) (rule : Rule ω)
    (hrule : grammar.rule? name = some rule) : name ∈ grammar.names := by
  by_contra hname
  simp [(grammar.rule?_eq_none_iff name).mpr hname] at hrule

-- The names on a path are different ones, so there is room for one more.
theorem length_path_lt (grammar : Grammar ω) (path : List String) (name : String)
    (hnodup : path.Nodup) (hsub : path ⊆ grammar.names) (hname : name ∈ grammar.names)
    (hpath : name ∉ path) :
    path.length < grammar.assignments.length := by
  have hle := (List.nodup_cons.mpr ⟨hpath, hnodup⟩).subperm
    (List.cons_subset.mpr ⟨hname, hsub⟩) |>.length_le
  rw [grammar.length_names] at hle
  exact hle

end Grammar

end PhraseGrammar
