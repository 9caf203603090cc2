import PhraseGrammar.Proofs.Ensemble.Reachable

namespace PhraseGrammar

variable {ω : Type} [Weight ω]

omit [Weight ω] in
-- In an ascending list an identity has one place, so what is left without that
-- place is what has another identity.
theorem eraseIdx_eq_filter {α : Type} (key : α → Nat) (entries : List α) (index : Nat)
    (hascending : (entries.map key).Pairwise (· < ·)) (h : index < entries.length) :
    entries.eraseIdx index = entries.filter (key · != key entries[index]) := by
  induction entries generalizing index with
  | nil => exact absurd h (Nat.not_lt_zero index)
  | cons entry rest ih =>
      obtain ⟨hfirst, hrest⟩ := List.pairwise_cons.mp hascending
      cases index with
      | zero =>
          have hall : ∀ other ∈ rest, (key other != key entry) = true := fun other hother => by
            have := hfirst _ (List.mem_map_of_mem hother)
            simp only [bne_iff_ne]
            omega
          simpa using (List.filter_eq_self.mpr hall).symm
      | succ index =>
          have hlt : index < rest.length := Nat.lt_of_succ_lt_succ h
          have := hfirst _ (List.mem_map_of_mem (List.getElem_mem hlt))
          have hne : (key entry != key rest[index]) = true := by
            simp only [bne_iff_ne]
            omega
          simp only [List.eraseIdx_cons_succ, List.getElem_cons_succ, ih index hrest hlt,
            List.filter_cons, hne, if_true]

-- A grammar that has been added, as it was before, with its start name and the
-- identity that it was given.
structure Addition (ω : Type) where
  identity : Nat
  grammar : Grammar ω
  start : String

def Addition.bound (addition : Addition ω) : Grammar ω :=
  (addition.grammar.bind addition.start).1

-- What can be done to an ensemble.
inductive Operation (ω : Type) where
  | add (grammar : Grammar ω) (start : String)
  | remove (identity : Nat)
  | equalize (enable : Bool)
  | clear

-- An ensemble with the additions to it that have not been taken back: neither
-- removed by the identity that they were answered with nor cleared.
structure Ledger (ω : Type) where
  ensemble : Ensemble ω
  kept : List (Addition ω)

namespace Ledger

omit [Weight ω] in
def empty : Ledger ω := ⟨Ensemble.empty, []⟩

def perform (ledger : Ledger ω) (supply : IdentitySupply) :
    Operation ω → Ledger ω × IdentitySupply
  | .add grammar start =>
      match ledger.ensemble.add grammar start supply with
      | (.ok identity, ensemble, supply) =>
          (⟨ensemble, ledger.kept ++ [⟨identity, grammar, start⟩]⟩, supply)
      | (.error _, ensemble, supply) => (⟨ensemble, ledger.kept⟩, supply)
  | .remove identity =>
      (⟨(ledger.ensemble.remove identity).2, ledger.kept.filter (·.identity != identity)⟩, supply)
  | .equalize enable =>
      (⟨{ ledger.ensemble with equalized := enable }, ledger.kept⟩, supply)
  | .clear => (empty, supply)

end Ledger

-- Ensembles that take their identities from one supply.
structure Holdings (ω : Type) where
  ledgers : List (Ledger ω)
  supply : IdentitySupply

-- What can happen to them. Places are counted in the order in which the
-- ensembles were made, and nothing happens at a place without one.
inductive Event (ω : Type) where
  | create
  | copy (place : Nat)
  | change (place : Nat) (operation : Operation ω)

namespace Holdings

def step (holdings : Holdings ω) : Event ω → Holdings ω
  | .create => { holdings with ledgers := holdings.ledgers ++ [Ledger.empty] }
  | .copy place =>
      { holdings with ledgers := holdings.ledgers ++ (holdings.ledgers[place]?).toList }
  | .change place operation =>
      match holdings.ledgers[place]? with
      | none => holdings
      | some ledger =>
          let (ledger, supply) := ledger.perform holdings.supply operation
          ⟨holdings.ledgers.set place ledger, supply⟩

def run (events : List (Event ω)) : Holdings ω :=
  events.foldl step ⟨[], .first⟩

end Holdings

namespace Ensemble

-- Adds grammars one after the other.
def addAll (ensemble : Ensemble ω) (supply : IdentitySupply) : List (Addition ω) → Ensemble ω
  | [] => ensemble
  | addition :: rest =>
      let (_, ensemble, supply) := ensemble.add addition.grammar addition.start supply
      addAll ensemble supply rest

def grammars (ensemble : Ensemble ω) : List (Grammar ω) :=
  ensemble.members.map Member.grammar

-- A phrase comes from one of the grammars, whatever its identity is.
theorem generate_eq (ensemble : Ensemble ω) (context : Context) :
    ensemble.generate context = (do
      match ← Generation.select ensemble.table false with
      | none => return nilPhrase
      | some index =>
          match ensemble.grammars[index]? with
          | none => throw (.missingChoice index)
          | some grammar => grammar.generate context ensemble.equalized) := by
  unfold Ensemble.generate
  refine congrArg (Generation.select ensemble.table false >>= ·) (funext fun selected => ?_)
  cases selected with
  | none => rfl
  | some index =>
      simp only [grammars, List.getElem?_map]
      cases ensemble.members[index]? <;> rfl

-- Two ensembles of the same grammars, whatever the identities are.
structure Alike (ensemble other : Ensemble ω) : Prop where
  grammars : ensemble.grammars = other.grammars
  table : ensemble.table = other.table
  equalized : ensemble.equalized = other.equalized

section Alike

variable {ensemble other : Ensemble ω} (h : ensemble.Alike other)

include h

theorem Alike.weight : ensemble.weight = other.weight := by
  rw [Ensemble.weight, h.table, Ensemble.weight]

omit [Weight ω] in
theorem Alike.combinations : ensemble.combinations = other.combinations := by
  have hgrammars := congrArg (List.map Grammar.combinations) h.grammars
  simp only [Ensemble.grammars, List.map_map, Function.comp_def] at hgrammars
  rw [Ensemble.combinations, hgrammars, Ensemble.combinations]

theorem Alike.generate (context : Context) :
    ensemble.generate context = other.generate context := by
  rw [generate_eq, generate_eq, h.grammars, h.table, h.equalized]

end Alike

theorem grammars_addAll (additions : List (Addition ω)) (ensemble : Ensemble ω)
    (supply : IdentitySupply)
    (hbinds : ∀ addition ∈ additions, (addition.grammar.bind addition.start).2 = []) :
    (ensemble.addAll supply additions).grammars =
      ensemble.grammars ++ additions.map Addition.bound := by
  induction additions generalizing ensemble supply with
  | nil => simp [addAll]
  | cons addition rest ih =>
      obtain ⟨hfirst, hrest⟩ := List.forall_mem_cons.mp hbinds
      rw [addAll, ih _ _ hrest]
      simp [add_eq, hfirst, grammars, Addition.bound]

theorem table_addAll (additions : List (Addition ω)) (ensemble : Ensemble ω)
    (h : ensemble.table = runningTotals ensemble.weights) (supply : IdentitySupply) :
    (ensemble.addAll supply additions).table =
      runningTotals (ensemble.addAll supply additions).weights := by
  induction additions generalizing ensemble supply with
  | nil => exact h
  | cons addition rest ih => exact ih _ (ensemble.table_add h _ _ _) _

theorem equalized_addAll (additions : List (Addition ω)) (ensemble : Ensemble ω)
    (supply : IdentitySupply) :
    (ensemble.addAll supply additions).equalized = ensemble.equalized := by
  induction additions generalizing ensemble supply with
  | nil => rfl
  | cons addition rest ih =>
      rw [addAll, ih, add_eq]
      split <;> rfl

theorem weights_eq (ensemble : Ensemble ω) :
    ensemble.weights = ensemble.grammars.map Grammar.weight := by
  simp only [weights, grammars, List.map_map, Function.comp_def]

end Ensemble

namespace Ledger

-- The ensemble holds what has been kept, each grammar bound, under ascending
-- identities that the supply has given out.
structure Kept (supply : IdentitySupply) (ledger : Ledger ω) : Prop where
  members : ledger.ensemble.members =
    ledger.kept.map fun addition => ⟨addition.identity, addition.bound⟩
  table : ledger.ensemble.table = runningTotals ledger.ensemble.weights
  binds (addition : Addition ω) (haddition : addition ∈ ledger.kept) :
    (addition.grammar.bind addition.start).2 = []
  ascending : (ledger.kept.map Addition.identity).Pairwise (· < ·)
  given (addition : Addition ω) (haddition : addition ∈ ledger.kept) :
    addition.identity < supply.next

theorem kept_empty (supply : IdentitySupply) : (empty : Ledger ω).Kept supply where
  members := rfl
  table := rfl
  binds := by simp [empty]
  ascending := .nil
  given := by simp [empty]

theorem Kept.later {supply later : IdentitySupply} (hlater : supply.next ≤ later.next)
    (ledger : Ledger ω) (h : ledger.Kept supply) : ledger.Kept later where
  members := h.members
  table := h.table
  binds := h.binds
  ascending := h.ascending
  given addition haddition := Nat.lt_of_lt_of_le (h.given addition haddition) hlater

theorem next_le_perform (ledger : Ledger ω) (supply : IdentitySupply) (operation : Operation ω) :
    supply.next ≤ (ledger.perform supply operation).2.next := by
  cases operation with
  | add grammar start =>
      by_cases hbinds : (grammar.bind start).2.isEmpty
      · simp [perform, Ensemble.add_eq, hbinds, IdentitySupply.rest]
      · simp [perform, Ensemble.add_eq, hbinds]
  | remove identity => exact Nat.le_refl _
  | equalize enable => exact Nat.le_refl _
  | clear => exact Nat.le_refl _

section Operations

variable (supply : IdentitySupply) (ledger : Ledger ω) (h : ledger.Kept supply)

include h

theorem Kept.add (grammar : Grammar ω) (start : String) :
    (ledger.perform supply (.add grammar start)).1.Kept
      (ledger.perform supply (.add grammar start)).2 := by
  have htable := ledger.ensemble.table_add h.table grammar start supply
  by_cases hbinds : (grammar.bind start).2 = []
  · rw [Ensemble.add_eq, hbinds] at htable
    simp only [perform, Ensemble.add_eq, hbinds, List.isEmpty_nil, if_true]
    constructor
    · simp only [h.members, List.map_append, List.map_cons, List.map_nil, Addition.bound]
    · exact htable
    · intro addition haddition
      rcases List.mem_append.mp haddition with hold | hadded
      · exact h.binds addition hold
      · rw [List.mem_singleton.mp hadded]
        exact hbinds
    · rw [List.map_append]
      refine List.pairwise_append.mpr ⟨h.ascending, List.pairwise_singleton _ _, ?_⟩
      intro identity hidentity last hlast
      obtain ⟨addition, haddition, rfl⟩ := List.mem_map.mp hidentity
      rw [List.mem_singleton.mp hlast]
      exact h.given addition haddition
    · intro addition haddition
      rcases List.mem_append.mp haddition with hold | hadded
      · exact Nat.lt_succ_of_lt (h.given addition hold)
      · rw [List.mem_singleton.mp hadded]
        exact Nat.lt_succ_self _
  · have hreports : (grammar.bind start).2.isEmpty = false := by
      simpa only [List.isEmpty_eq_false_iff] using hbinds
    simp only [perform, Ensemble.add_eq, hreports, Bool.false_eq_true, if_false]
    exact h

theorem Kept.identities : ledger.ensemble.identities = ledger.kept.map Addition.identity := by
  simp only [Ensemble.identities, h.members, List.map_map, Function.comp_def]

theorem Kept.ascending_identities : ledger.ensemble.identities.Pairwise (· < ·) := by
  rw [h.identities]
  exact h.ascending

-- What is removed from the ensemble is what is struck from the ledger.
theorem Kept.members_remove (identity : Nat) :
    (ledger.ensemble.remove identity).2.members =
      (ledger.kept.filter (·.identity != identity)).map
        fun addition => ⟨addition.identity, addition.bound⟩ := by
  have hidentities := h.identities
  have hascending := h.ascending_identities
  cases hplace : ledger.ensemble.placeOf? identity with
  | none =>
      have hnot := (ledger.ensemble.placeOf?_eq_none_iff hascending identity).mp hplace
      have hall : ∀ addition ∈ ledger.kept, (addition.identity != identity) = true := by
        intro addition haddition
        refine bne_iff_ne.mpr fun he => hnot ?_
        rw [hidentities, ← he]
        exact List.mem_map_of_mem haddition
      simp only [Ensemble.remove, hplace]
      rw [List.filter_eq_self.mpr hall, h.members]
  | some index =>
      have hsame := ledger.ensemble.getElem?_of_placeOf? identity index hplace
      rw [hidentities, List.getElem?_map] at hsame
      obtain ⟨addition, haddition, hidentity⟩ := Option.map_eq_some_iff.mp hsame
      obtain ⟨hindex, rfl⟩ := List.getElem?_eq_some_iff.mp haddition
      simp only [Ensemble.remove, hplace]
      rw [h.members, List.eraseIdx_map,
        eraseIdx_eq_filter Addition.identity ledger.kept index h.ascending hindex, hidentity]

theorem Kept.remove (identity : Nat) :
    (ledger.perform supply (.remove identity)).1.Kept supply where
  members := h.members_remove supply ledger identity
  table := ledger.ensemble.table_remove h.table identity
  binds addition haddition := h.binds addition (List.mem_of_mem_filter haddition)
  ascending := h.ascending.sublist (List.filter_sublist.map _)
  given addition haddition := h.given addition (List.mem_of_mem_filter haddition)

theorem Kept.perform (operation : Operation ω) :
    (ledger.perform supply operation).1.Kept (ledger.perform supply operation).2 := by
  cases operation with
  | add grammar start => exact h.add supply ledger grammar start
  | remove identity => exact h.remove supply ledger identity
  | equalize enable => exact ⟨h.members, h.table, h.binds, h.ascending, h.given⟩
  | clear => exact kept_empty supply

end Operations

-- A new ensemble to which only what has been kept is added, in the same order.
def rebuilt (ledger : Ledger ω) (supply : IdentitySupply) : Ensemble ω :=
  ({ Ensemble.empty with equalized := ledger.ensemble.equalized } : Ensemble ω).addAll supply
    ledger.kept

theorem Kept.alike {supply : IdentitySupply} (ledger : Ledger ω) (h : ledger.Kept supply)
    (fresh : IdentitySupply) : ledger.ensemble.Alike (ledger.rebuilt fresh) := by
  have hgrammars : ledger.ensemble.grammars = (ledger.rebuilt fresh).grammars := by
    rw [rebuilt, Ensemble.grammars_addAll _ _ _ h.binds, Ensemble.grammars, h.members, List.map_map]
    rfl
  refine ⟨hgrammars, ?_, by rw [rebuilt, Ensemble.equalized_addAll]⟩
  rw [h.table, rebuilt, Ensemble.table_addAll _ _ rfl, Ensemble.weights_eq, Ensemble.weights_eq,
    hgrammars, rebuilt]

end Ledger

namespace Holdings

def Kept (holdings : Holdings ω) : Prop :=
  ∀ ledger ∈ holdings.ledgers, ledger.Kept holdings.supply

theorem Kept.step (holdings : Holdings ω) (h : holdings.Kept) (event : Event ω) :
    (holdings.step event).Kept := by
  cases event with
  | create =>
      intro ledger hledger
      rcases List.mem_append.mp hledger with hold | hnew
      · exact h ledger hold
      · rw [List.mem_singleton.mp hnew]
        exact Ledger.kept_empty holdings.supply
  | copy place =>
      intro ledger hledger
      rcases List.mem_append.mp hledger with hold | hcopy
      · exact h ledger hold
      · exact h ledger (List.mem_of_getElem? (Option.mem_toList.mp hcopy))
  | change place operation =>
      cases hplace : holdings.ledgers[place]? with
      | none =>
          simp only [Holdings.step, hplace]
          exact h
      | some changed =>
          simp only [Holdings.step, hplace]
          intro ledger hledger
          rcases List.mem_or_eq_of_mem_set hledger with hold | rfl
          · exact (h ledger hold).later (changed.next_le_perform holdings.supply operation)
          · have hchanged := h changed (List.mem_of_getElem? hplace)
            exact hchanged.perform holdings.supply changed operation

theorem kept_run (events : List (Event ω)) : (run events).Kept := by
  suffices hfold : ∀ holdings : Holdings ω, holdings.Kept → (events.foldl step holdings).Kept
    from hfold ⟨[], .first⟩ (by simp [Kept])
  induction events with
  | nil => exact fun _ h => h
  | cons event rest ih => exact fun holdings h => ih _ (h.step holdings event)

-- Whatever has been added and removed, an ensemble is what the additions that
-- are left make of a new one, and its table holds their weights added from the
-- left.
theorem run_as_if_never_added (events : List (Event ω)) (ledger : Ledger ω)
    (hledger : ledger ∈ (run events).ledgers) (fresh : IdentitySupply) :
    ledger.ensemble.identities = ledger.kept.map Addition.identity ∧
      ledger.ensemble.grammars = ledger.kept.map Addition.bound ∧
      ledger.ensemble.identities.length = ledger.ensemble.grammars.length ∧
      ledger.ensemble.table.length = ledger.ensemble.grammars.length ∧
      ledger.ensemble.table = (ledger.rebuilt fresh).table ∧
      ledger.ensemble.weight = (ledger.rebuilt fresh).weight ∧
      ledger.ensemble.combinations = (ledger.rebuilt fresh).combinations ∧
      (∀ context, ledger.ensemble.generate context = (ledger.rebuilt fresh).generate context) ∧
      ∀ index < ledger.kept.length, ledger.ensemble.table[index]? =
        some (((ledger.kept.map (·.bound.weight)).take (index + 1)).foldl (· + ·) 0) := by
  have h := kept_run events ledger hledger
  have halike := h.alike ledger fresh
  have hgrammars : ledger.ensemble.grammars = ledger.kept.map Addition.bound := by
    simp only [Ensemble.grammars, h.members, List.map_map, Function.comp_def]
  have hweights : ledger.ensemble.weights = ledger.kept.map (·.bound.weight) := by
    rw [Ensemble.weights_eq, hgrammars, List.map_map]
    rfl
  refine ⟨?_, hgrammars, ?_, ?_, halike.table, halike.weight, halike.combinations,
    halike.generate, fun index hindex => ?_⟩
  · simp only [Ensemble.identities, h.members, List.map_map, Function.comp_def]
  · rw [Ensemble.identities, Ensemble.grammars, List.length_map, List.length_map]
  · simp [h.table, Ensemble.weights_eq]
  · rw [h.table, hweights]
    exact getElem?_runningTotals _ _ (by rwa [List.length_map])

-- Three additions to an ensemble and a removal from the middle, after which a
-- copy that was made in between is added to.
def removals : List (Event Rat) :=
  let rule (weight : Rat) : Rule Rat :=
    .ofChoices [Choice.empty.push (.literal "x")] false [] (some weight)
  let grammar := ((Grammar.empty.insert "a" (rule 2)).1.insert "b" (rule (1 / 3))).1
  [.create, .change 0 (.add grammar "a"), .change 0 (.add grammar "b"),
    .change 0 (.add grammar "none"), .change 0 (.add grammar "a"), .copy 0,
    .change 0 (.remove 2), .change 1 (.add grammar "b")]

theorem run_removals : ∃ ledger ∈ (run removals).ledgers,
    ledger.ensemble.identities = [1, 3] ∧ ledger.ensemble.table = [2, 4] ∧
      (ledger.rebuilt ⟨9⟩).table = [2, 4] := by
  obtain ⟨ledger, hledger, hidentities, htable⟩ : ∃ ledger ∈ (run removals).ledgers,
      ledger.ensemble.identities = [1, 3] ∧ ledger.ensemble.table = [2, 4] := by
    decide +kernel
  obtain ⟨_, _, _, _, hrebuilt, _⟩ := run_as_if_never_added removals ledger hledger ⟨9⟩
  exact ⟨ledger, hledger, hidentities, htable, hrebuilt ▸ htable⟩

end Holdings

end PhraseGrammar
