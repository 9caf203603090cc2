import PhraseGrammar.Generator
import PhraseGrammar.Proofs.Ensemble.Survivors

namespace PhraseGrammar

variable {ω : Type}

-- An ensemble by itself, or the one of a generator.
inductive Holder (ω : Type) where
  | alone (ensemble : Ensemble ω)
  | within (generator : Generator ω)

namespace Holder

def ensemble : Holder ω → Ensemble ω
  | alone ensemble => ensemble
  | within generator => generator.ensemble

def equalize (enable : Bool) : Holder ω → Holder ω
  | alone ensemble => alone { ensemble with equalized := enable }
  | within generator => within (generator.equalize enable)

def clear : Holder ω → Holder ω
  | alone _ => alone Ensemble.empty
  | within generator => within generator.clear

variable [Weight ω]

-- An ensemble by itself takes any grammar, whatever has been reported of it.
def add (document : Document ω) (start : String) (supply : IdentitySupply) :
    Holder ω → Except (List Diagnostic) Nat × Holder ω × IdentitySupply
  | alone ensemble =>
      let (answer, ensemble, supply) := ensemble.add document.grammar start supply
      (answer, alone ensemble, supply)
  | within generator =>
      let (answer, generator, supply) := generator.addWithStart document start supply
      (answer, within generator, supply)

def remove (identity : Nat) : Holder ω → Bool × Holder ω
  | alone ensemble =>
      let (removed, ensemble) := ensemble.remove identity
      (removed, alone ensemble)
  | within generator =>
      let (removed, generator) := generator.remove identity
      (removed, within generator)

-- A generator draws from its own source.
def generate (context : Context) (source : Source ω) : Holder ω → Except Abort String × Holder ω
  | alone ensemble => (((ensemble.generate context).run.run source).1, alone ensemble)
  | within generator =>
      let (outcome, generator) := generator.generate context
      (outcome, within generator)

-- All that an addition can come to: it is refused, and neither the ensemble
-- nor the supply has changed, or it is answered with the next identity.
theorem add_cases (holder : Holder ω) (document : Document ω) (start : String)
    (supply : IdentitySupply) :
    (∃ reports other, holder.add document start supply = (.error reports, other, supply) ∧
      other.ensemble = holder.ensemble) ∨
    ∃ other, holder.add document start supply = (.ok supply.next, other, supply.rest) ∧
      (document.grammar.bind start).2 = [] ∧
      other.ensemble = (holder.ensemble.add document.grammar start supply).2.1 := by
  by_cases hbinds : (document.grammar.bind start).2 = []
  · cases holder with
    | alone ensemble =>
        right
        simp [add, Ensemble.add_eq, hbinds, Holder.ensemble]
    | within generator =>
        by_cases herrors : document.hasErrors
        · left
          simp [add, Generator.addWithStart, herrors, Holder.ensemble]
        · right
          simp [add, Generator.addWithStart, herrors, Ensemble.add_eq, hbinds, Holder.ensemble]
  · left
    cases holder with
    | alone ensemble => simp [add, Ensemble.add_eq, hbinds, Holder.ensemble]
    | within generator =>
        by_cases herrors : document.hasErrors <;>
          simp [add, Generator.addWithStart, herrors, Ensemble.add_eq, hbinds, Holder.ensemble]

theorem fst_remove (holder : Holder ω) (identity : Nat) :
    (holder.remove identity).1 = (holder.ensemble.remove identity).1 := by
  cases holder <;> rfl

theorem ensemble_remove (holder : Holder ω) (identity : Nat) :
    (holder.remove identity).2.ensemble = (holder.ensemble.remove identity).2 := by
  cases holder <;> rfl

theorem remove_of_none (holder : Holder ω) (identity : Nat)
    (h : holder.ensemble.placeOf? identity = none) : holder.remove identity = (false, holder) := by
  cases holder with
  | alone ensemble =>
      rw [Holder.ensemble] at h
      simp only [remove, Ensemble.remove, h]
  | within generator =>
      rw [Holder.ensemble] at h
      simp only [remove, Generator.remove, Ensemble.remove, h]

theorem ensemble_generate (holder : Holder ω) (context : Context) (source : Source ω) :
    (holder.generate context source).2.ensemble = holder.ensemble := by
  cases holder <;> rfl

end Holder

-- A holder with the additions to it that have not been taken back. Those to the
-- ensemble that it is a copy of count as additions to it.
structure Account (ω : Type) where
  holder : Holder ω
  kept : List (Addition ω)

inductive Request (ω : Type) where
  | add (document : Document ω) (start : String)
  | remove (identity : Nat)
  | equalize (enable : Bool)
  | clear
  | generate (context : Context) (source : Source ω)

namespace Account

def ledger (account : Account ω) : Ledger ω := ⟨account.holder.ensemble, account.kept⟩

variable [Weight ω]

-- Along with the account this returns the addition that has been answered with
-- an identity, if there is one.
def perform (account : Account ω) (supply : IdentitySupply) :
    Request ω → Account ω × IdentitySupply × Option (Addition ω)
  | .add document start =>
      match account.holder.add document start supply with
      | (.ok identity, holder, supply) =>
          (⟨holder, account.kept ++ [⟨identity, document.grammar, start⟩]⟩, supply,
            some ⟨identity, document.grammar, start⟩)
      | (.error _, holder, supply) => (⟨holder, account.kept⟩, supply, none)
  | .remove identity =>
      (⟨(account.holder.remove identity).2, account.kept.filter (·.identity != identity)⟩, supply,
        none)
  | .equalize enable => (⟨account.holder.equalize enable, account.kept⟩, supply, none)
  | .clear => (⟨account.holder.clear, []⟩, supply, none)
  | .generate context source =>
      (⟨(account.holder.generate context source).2, account.kept⟩, supply, none)

-- All that a request can do to an account and the supply. Only an addition that
-- is answered uses up an identity.
theorem perform_cases (account : Account ω) (supply : IdentitySupply) (request : Request ω)
    (h : account.ledger.Kept supply) :
    (∃ other, account.perform supply request = (other, supply, none) ∧
      other.kept ⊆ account.kept ∧ other.ledger.Kept supply) ∨
    ∃ other addition, account.perform supply request = (other, supply.rest, some addition) ∧
      addition.identity = supply.next ∧ other.kept = account.kept ++ [addition] ∧
      other.ledger.Kept supply.rest := by
  cases request with
  | add document start =>
      rcases account.holder.add_cases document start supply with
        ⟨reports, holder, hadd, hensemble⟩ | ⟨holder, hadd, hbinds, hensemble⟩
      · left
        refine ⟨⟨holder, account.kept⟩, by rw [perform, hadd], List.Subset.refl _, ?_⟩
        rwa [ledger, hensemble]
      · right
        refine ⟨_, _, by rw [perform, hadd], rfl, rfl, ?_⟩
        have hkept := h.add supply account.ledger document.grammar start
        simp only [Ledger.perform, ledger, Ensemble.add_eq, hbinds, List.isEmpty_nil,
          if_true] at hkept hensemble
        rwa [ledger, hensemble]
  | remove identity =>
      left
      refine ⟨_, rfl, List.filter_sublist.subset, ?_⟩
      rw [ledger, Holder.ensemble_remove]
      exact h.remove supply account.ledger identity
  | equalize enable =>
      left
      refine ⟨_, rfl, List.Subset.refl _, ?_⟩
      have hkept := h.perform supply account.ledger (.equalize enable)
      obtain ⟨_ | _, _⟩ := account <;> exact hkept
  | clear =>
      left
      refine ⟨_, rfl, List.nil_subset _, ?_⟩
      obtain ⟨_ | _, _⟩ := account <;> exact Ledger.kept_empty supply
  | generate context source =>
      left
      refine ⟨_, rfl, List.Subset.refl _, ?_⟩
      rwa [ledger, Holder.ensemble_generate]

end Account

-- Ensembles and generators that take their identities from one supply, and the
-- additions that have been answered with an identity, by whichever of them.
structure Registry (ω : Type) where
  accounts : List (Account ω)
  supply : IdentitySupply
  given : List (Addition ω)

namespace Registry

-- What can happen to them. Places are counted in the order in which they were
-- made, and nothing happens at a place without one. A generator is not copied.
inductive Event (ω : Type) where
  | newEnsemble
  | newGenerator (source : Source ω) (startSymbol : String)
  | copy (place : Nat)
  | request (place : Nat) (request : Request ω)

variable [Weight ω]

def step (registry : Registry ω) : Event ω → Registry ω
  | .newEnsemble =>
      { registry with accounts := registry.accounts ++ [⟨.alone Ensemble.empty, []⟩] }
  | .newGenerator source startSymbol =>
      { registry with
        accounts := registry.accounts ++
          [⟨.within { Generator.ofSource source with startSymbol := startSymbol }, []⟩] }
  | .copy place =>
      match registry.accounts[place]? with
      | some ⟨.alone ensemble, kept⟩ =>
          { registry with accounts := registry.accounts ++ [⟨.alone ensemble, kept⟩] }
      | _ => registry
  | .request place request =>
      match registry.accounts[place]? with
      | none => registry
      | some account =>
          let (account, supply, addition) := account.perform registry.supply request
          ⟨registry.accounts.set place account, supply, registry.given ++ addition.toList⟩

def run (events : List (Event ω)) : Registry ω :=
  events.foldl step ⟨[], .first, []⟩

-- Identities have been given out in order from the first one on, and what an
-- account has kept is among the additions that they were given to.
structure Sound (registry : Registry ω) : Prop where
  kept : ∀ account ∈ registry.accounts, account.ledger.Kept registry.supply
  subset : ∀ account ∈ registry.accounts, account.kept ⊆ registry.given
  given : registry.given.map Addition.identity = List.range' 1 registry.given.length
  next : registry.supply.next = registry.given.length + 1

theorem Sound.append (registry : Registry ω) (h : registry.Sound) (account : Account ω)
    (hkept : account.ledger.Kept registry.supply) (hsubset : account.kept ⊆ registry.given) :
    { registry with accounts := registry.accounts ++ [account] : Registry ω }.Sound where
  kept := List.forall_mem_append.mpr ⟨h.kept, List.forall_mem_singleton.mpr hkept⟩
  subset := List.forall_mem_append.mpr ⟨h.subset, List.forall_mem_singleton.mpr hsubset⟩
  given := h.given
  next := h.next

theorem Sound.set (registry : Registry ω) (h : registry.Sound) (place : Nat) (account : Account ω)
    (hkept : account.ledger.Kept registry.supply) (hsubset : account.kept ⊆ registry.given) :
    { registry with accounts := registry.accounts.set place account : Registry ω }.Sound where
  kept := by
    intro other hother
    rcases List.mem_or_eq_of_mem_set hother with hold | rfl
    · exact h.kept other hold
    · exact hkept
  subset := by
    intro other hother
    rcases List.mem_or_eq_of_mem_set hother with hold | rfl
    · exact h.subset other hold
    · exact hsubset
  given := h.given
  next := h.next

-- Giving out the next identity does not disturb an account.
theorem Sound.give (registry : Registry ω) (h : registry.Sound) (addition : Addition ω)
    (hidentity : addition.identity = registry.supply.next) :
    (⟨registry.accounts, registry.supply.rest, registry.given ++ [addition]⟩ :
      Registry ω).Sound where
  kept account haccount := (h.kept account haccount).later (Nat.le_succ _)
  subset account haccount := List.subset_append_of_subset_left _ (h.subset account haccount)
  given := by
    have hplace : addition.identity = 1 + registry.given.length := by
      rw [hidentity, h.next, Nat.add_comm]
    simp [List.range'_concat, h.given, hplace]
  next := by simp [IdentitySupply.rest, h.next]

theorem Sound.request (registry : Registry ω) (h : registry.Sound) (place : Nat)
    (request : Request ω) : (registry.step (.request place request)).Sound := by
  cases hplace : registry.accounts[place]? with
  | none =>
      simp only [Registry.step, hplace]
      exact h
  | some account =>
      have hmem := List.mem_of_getElem? hplace
      have hold := h.subset account hmem
      rcases account.perform_cases registry.supply request (h.kept account hmem) with
        ⟨other, hperform, hsubset, hkept⟩ |
          ⟨other, addition, hperform, hidentity, hadded, hkept⟩ <;>
        simp only [Registry.step, hplace, hperform]
      · simpa using h.set registry place other hkept (List.Subset.trans hsubset hold)
      · have hgiven : other.kept ⊆ registry.given ++ [addition] := by
          rw [hadded]
          exact List.append_subset.mpr
            ⟨List.subset_append_of_subset_left _ hold, List.subset_append_right _ _⟩
        exact (h.give registry addition hidentity).set _ place other hkept hgiven

theorem Sound.step (registry : Registry ω) (h : registry.Sound) (event : Event ω) :
    (registry.step event).Sound := by
  cases event with
  | newEnsemble => exact h.append registry _ (Ledger.kept_empty _) (List.nil_subset _)
  | newGenerator source startSymbol =>
      exact h.append registry _ (Ledger.kept_empty _) (List.nil_subset _)
  | copy place =>
      rw [Registry.step]
      split
      next ensemble kept hplace =>
        have hmem := List.mem_of_getElem? hplace
        exact h.append registry _ (h.kept _ hmem) (h.subset _ hmem)
      next => exact h
  | request place request => exact h.request registry place request

theorem sound_run (events : List (Event ω)) : (run events).Sound := by
  suffices hfold : ∀ registry : Registry ω, registry.Sound → (events.foldl step registry).Sound
    from hfold ⟨[], .first, []⟩ ⟨nofun, nofun, rfl, rfl⟩
  induction events with
  | nil => exact fun _ h => h
  | cons event rest ih => exact fun registry h => ih _ (h.step registry event)

end Registry

def Addition.member [Weight ω] (addition : Addition ω) : Member ω :=
  ⟨addition.identity, addition.bound⟩

namespace Account

variable [Weight ω]

-- What an addition to the account comes to, after those that have been given
-- identities before. A refused one leaves the ensemble and the supply.
structure Adds (account : Account ω) (supply : IdentitySupply) (given : List (Addition ω))
    (document : Document ω) (start : String) : Prop where
  answered (identity : Nat) (h : (account.holder.add document start supply).1 = .ok identity) :
    (∀ earlier ∈ given, earlier.identity < identity) ∧
      (account.holder.add document start supply).2.1.ensemble.members =
        account.holder.ensemble.members ++ [⟨identity, (document.grammar.bind start).1⟩]
  refused (reports : List Diagnostic)
      (h : (account.holder.add document start supply).1 = .error reports) :
    (account.holder.add document start supply).2.1.ensemble = account.holder.ensemble ∧
      (account.holder.add document start supply).2.2 = supply

-- What removing an identity comes to. It takes out the one addition that was
-- given the identity, if the account has kept it, and changes nothing if not.
structure Removes (account : Account ω) (identity : Nat) : Prop where
  answer : (account.holder.remove identity).1 = true ↔
    ∃ addition ∈ account.kept, addition.identity = identity
  held (addition : Addition ω) (h : addition ∈ account.kept)
      (hidentity : addition.identity = identity) :
    ∃ before after, account.kept = before ++ addition :: after ∧
      account.holder.ensemble.members = (before ++ addition :: after).map Addition.member ∧
      (account.holder.remove identity).2.ensemble.members =
        (before ++ after).map Addition.member
  missing (h : ∀ addition ∈ account.kept, addition.identity ≠ identity) :
    (account.holder.remove identity).2 = account.holder

theorem adds (account : Account ω) (supply : IdentitySupply) (given : List (Addition ω))
    (hgiven : ∀ earlier ∈ given, earlier.identity < supply.next) (document : Document ω)
    (start : String) : account.Adds supply given document start := by
  rcases account.holder.add_cases document start supply with
    ⟨reports, holder, hadd, hensemble⟩ | ⟨holder, hadd, hbinds, hensemble⟩ <;>
    constructor <;> rw [hadd]
  · exact fun _ h => nomatch h
  · exact fun _ _ => ⟨hensemble, rfl⟩
  · rintro _ ⟨⟩
    refine ⟨hgiven, ?_⟩
    rw [hensemble, Ensemble.add_eq, hbinds]
    rfl
  · exact fun _ h => nomatch h

omit [Weight ω] in
-- Identities ascend, so no other addition goes with the one that is struck.
theorem filter_identity_eq (before after : List (Addition ω)) (addition : Addition ω)
    (h : ((before ++ addition :: after).map Addition.identity).Pairwise (· < ·)) :
    (before ++ addition :: after).filter (·.identity != addition.identity) = before ++ after := by
  rw [List.map_append, List.map_cons, List.pairwise_append, List.pairwise_cons] at h
  obtain ⟨_, ⟨hlater, _⟩, hearlier⟩ := h
  have hbefore : ∀ other ∈ before, (other.identity != addition.identity) = true := by
    intro other hother
    have := hearlier _ (List.mem_map_of_mem hother) _ List.mem_cons_self
    simp only [bne_iff_ne]
    omega
  have hafter : ∀ other ∈ after, (other.identity != addition.identity) = true := by
    intro other hother
    have := hlater _ (List.mem_map_of_mem hother)
    simp only [bne_iff_ne]
    omega
  rw [List.filter_append, List.filter_cons, List.filter_eq_self.mpr hbefore,
    List.filter_eq_self.mpr hafter]
  simp

theorem removes (account : Account ω) (supply : IdentitySupply) (h : account.ledger.Kept supply)
    (identity : Nat) : account.Removes identity := by
  have hidentities : account.holder.ensemble.identities = account.kept.map Addition.identity :=
    h.identities
  have hplace := account.holder.ensemble.placeOf?_eq_none_iff h.ascending_identities identity
  rw [hidentities, List.mem_map] at hplace
  constructor
  · rw [account.holder.fst_remove]
    cases hfound : account.holder.ensemble.placeOf? identity with
    | none => simpa [Ensemble.remove, hfound] using hplace.mp hfound
    | some place =>
        have hheld := mt hplace.mpr (by simp [hfound])
        simpa [Ensemble.remove, hfound] using hheld
  · rintro addition hmem rfl
    obtain ⟨before, after, hkept⟩ := List.append_of_mem hmem
    refine ⟨before, after, hkept, ?_, ?_⟩
    · rw [← hkept]
      exact h.members
    · have hmembers := h.members_remove supply account.ledger addition.identity
      rw [account.holder.ensemble_remove]
      refine hmembers.trans ?_
      have hpairwise := h.ascending
      simp only [ledger, hkept] at hpairwise ⊢
      rw [filter_identity_eq before after addition hpairwise]
      rfl
  · intro hmissing
    have hnone : account.holder.ensemble.placeOf? identity = none := by
      apply hplace.mpr
      rintro ⟨addition, hmem, he⟩
      exact hmissing addition hmem he
    rw [account.holder.remove_of_none identity hnone]

end Account

namespace Registry

variable [Weight ω]

-- Whatever has happened, an identity names one addition: it is greater than all
-- that were given out before, wherever that was, and removing it takes out what
-- it was given to, and nothing else. No identity is greater than the count of
-- additions, so 64 bits hold them all as long as they hold the count.
theorem identity_names_addition (events : List (Event ω)) (account : Account ω)
    (h : account ∈ (run events).accounts) :
    ((run events).given.map Addition.identity).Pairwise (· < ·) ∧
    (∀ addition ∈ (run events).given,
      0 < addition.identity ∧ addition.identity ≤ (run events).given.length) ∧
    account.kept ⊆ (run events).given ∧
    account.holder.ensemble.identities.Pairwise (· < ·) ∧
    (∀ document start, account.Adds (run events).supply (run events).given document start) ∧
    ∀ identity, account.Removes identity := by
  have hsound := sound_run events
  have hkept := hsound.kept account h
  have hrange : ∀ addition ∈ (run events).given,
      0 < addition.identity ∧ addition.identity ≤ (run events).given.length := by
    intro addition haddition
    have hmem := List.mem_map_of_mem (f := Addition.identity) haddition
    rw [hsound.given, List.mem_range'_1] at hmem
    omega
  refine ⟨?_, hrange, hsound.subset account h, ?_, ?_, account.removes _ hkept⟩
  · rw [hsound.given]
    exact List.pairwise_lt_range'
  · exact hkept.ascending_identities
  · refine fun document start => account.adds _ _ (fun earlier hearlier => ?_) document start
    have hnext := hsound.next
    have := hrange earlier hearlier
    omega

-- An ensemble and a generator that are added to in turn. One addition to the
-- generator is refused, and a copy of the ensemble keeps what is removed from
-- the ensemble later.
def crossing : List (Event Rat) :=
  let rule : Rule Rat := .ofChoices [Choice.empty.push (.literal "x")] false [] none
  let document : Document Rat := ⟨(Grammar.empty.insert "main" rule).1, []⟩
  [.newEnsemble, .newGenerator (.ofList [0]) "main", .request 0 (.add document "main"),
    .request 1 (.add document "main"), .request 1 (.add document "none"), .copy 0,
    .request 0 (.remove 1), .request 1 (.generate .empty (.ofList [])),
    .request 2 (.add document "main")]

theorem crossing_identity_names_addition :
    (run crossing).accounts.map (·.holder.ensemble.identities) = [[], [2], [1, 3]] ∧
      (run crossing).given.map Addition.identity = [1, 2, 3] ∧
      ∃ account ∈ (run crossing).accounts, account.kept.map Addition.identity = [1, 3] ∧
        account.Removes 1 ∧ (account.holder.remove 1).1 = true ∧
        (account.holder.remove 2).1 = false := by
  obtain ⟨account, hmem, hkept⟩ : ∃ account ∈ (run crossing).accounts,
      account.kept.map Addition.identity = [1, 3] := by
    decide +kernel
  obtain ⟨_, _, _, _, _, hremoves⟩ := identity_names_addition crossing account hmem
  have hidentity (identity : Nat) : (account.holder.remove identity).1 = true ↔
      identity ∈ [1, 3] := by
    rw [(hremoves identity).answer, ← hkept, List.mem_map]
  have hother : (account.holder.remove 2).1 = false :=
    Bool.eq_false_iff.mpr (mt (hidentity 2).mp (by decide))
  exact ⟨by decide +kernel, by decide +kernel, account, hmem, hkept, hremoves 1,
    (hidentity 1).mpr (by decide), hother⟩

end Registry

end PhraseGrammar
