import PhraseGrammar.Proofs.Binding.Outcome

namespace PhraseGrammar

variable {ω : Type}

namespace Grammar

-- The rule of one name mentions another, which may be assigned or not.
def Mentions (grammar : Grammar ω) (name other : String) : Prop :=
  ∃ rule, grammar.rule? name = some rule ∧ other ∈ rule.mentions

-- Only names of a list can be reached from one of them if their rules mention
-- no others.
theorem reach_mem (grammar : Grammar ω) (names : List String)
    (hclosed : ∀ name ∈ names, ((grammar.rule? name).map Rule.mentions).getD [] ⊆ names)
    (start name : String) (hstart : start ∈ names)
    (hreach : Relation.ReflTransGen grammar.Mentions start name) : name ∈ names := by
  induction hreach with
  | refl => exact hstart
  | tail _ hlast ih =>
      obtain ⟨rule, hrule, hmention⟩ := hlast
      exact hclosed _ ih (by simpa [hrule] using hmention)

-- A name is assigned in both grammars or in none, and its rules mention the
-- same names in the same order.
def SameMentions (grammar other : Grammar ω) (name : String) : Prop :=
  (grammar.rule? name).map Rule.mentions = (other.rule? name).map Rule.mentions

section SameMentions

variable {grammar other : Grammar ω} {name : String}

theorem Refers.mentions {next : String} (h : grammar.Refers name next) :
    grammar.Mentions name next := by
  obtain ⟨rule, hrule, hmention, _⟩ := h
  exact ⟨rule, hrule, hmention⟩

theorem SameMentions.symm (h : grammar.SameMentions other name) :
    other.SameMentions grammar name := Eq.symm h

theorem SameMentions.mem_names_iff (h : grammar.SameMentions other name) :
    name ∈ grammar.names ↔ name ∈ other.names := by
  have hnone := congrArg Option.isNone h
  rw [Option.isNone_map, Option.isNone_map, Bool.eq_iff_iff, Option.isNone_iff_eq_none,
    Option.isNone_iff_eq_none, rule?_eq_none_iff, rule?_eq_none_iff] at hnone
  exact not_iff_not.mp hnone

theorem SameMentions.indexOf?_eq_none (h : grammar.SameMentions other name)
    (hname : grammar.indexOf? name = none) : other.indexOf? name = none := by
  rw [indexOf?_eq_none_iff] at hname ⊢
  exact fun hm => hname (h.mem_names_iff.mpr hm)

theorem SameMentions.mentions_eq (h : grammar.SameMentions other name) (rule rule' : Rule ω)
    (hrule : grammar.rule? name = some rule) (hrule' : other.rule? name = some rule') :
    rule.mentions = rule'.mentions := by
  rw [SameMentions, hrule, hrule', Option.map_some, Option.map_some] at h
  exact Option.some.inj h

theorem sameMentions_nextPass : grammar.nextPass.SameMentions grammar name := by
  simp [SameMentions, Function.comp_def]

@[simp] theorem mentions_nextPass : grammar.nextPass.Mentions = grammar.Mentions := by
  funext name next
  simp [Mentions]

end SameMentions

variable [Weight ω] {grammar other : Grammar ω} {path names : List String}
  {trail last trail' last' : Trail ω} {given given' : List (Option (Nat × Tally ω))}

-- Two walks below the same path along the same references go the same way, if
-- the names that can be reached mention the same in both grammars. They finish
-- the same names in the same order, and report the same.
theorem Walk.agree (h : grammar.Walk path names trail given last)
    (h' : other.Walk path names trail' given' last')
    (hsame : ∀ name ∈ names, ∀ next, Relation.ReflTransGen grammar.Mentions name next →
      grammar.SameMentions other next)
    (hopen : ∀ name ∈ path, name ∉ trail.names) (hnames : trail.names = trail'.names)
    (hreports : trail.reports = trail'.reports) :
    last.names = last'.names ∧ last.reports = last'.reports := by
  induction h generalizing trail' given' last' with
  | nil =>
      cases h'
      exact ⟨hnames, hreports⟩
  | unassigned _ name _ _ _ _ hname _ ih =>
      have hnone := (hsame name List.mem_cons_self name .refl).indexOf?_eq_none hname
      have hrest := fun name hm => hsame name (List.mem_cons_of_mem _ hm)
      cases h' with
      | unassigned _ _ _ _ _ _ _ hwalk => exact ih hwalk hrest hopen hnames hreports
      | finished _ _ _ _ _ _ _ _ hindex => simp [hnone] at hindex
      | cycle _ _ _ _ _ _ _ hindex => simp [hnone] at hindex
      | visit _ _ _ _ _ _ _ _ _ _ hindex => simp [hnone] at hindex
  | finished _ name _ trail _ _ index rule hname hfinished _ ih =>
      have hrefl := hsame name List.mem_cons_self name .refl
      have hrest := fun name hm => hsame name (List.mem_cons_of_mem _ hm)
      have hmem : name ∈ trail.names := mem_names_of_lookup _ name rule hfinished
      rw [hnames] at hmem
      cases h' with
      | unassigned _ _ _ _ _ _ hnone => simp [hrefl.symm.indexOf?_eq_none hnone] at hname
      | finished _ _ _ _ _ _ _ _ _ _ hwalk => exact ih hwalk hrest hopen hnames hreports
      | cycle _ _ _ _ _ _ _ _ hpath => exact absurd hmem (hnames ▸ hopen name hpath)
      | visit _ _ _ _ _ _ _ _ _ _ _ _ _ hnew =>
          exact absurd hmem ((lookup_eq_none_iff _ name).mp hnew)
  | cycle _ name _ trail _ _ index hname hpath _ ih =>
      have hrefl := hsame name List.mem_cons_self name .refl
      have hrest := fun name hm => hsame name (List.mem_cons_of_mem _ hm)
      cases h' with
      | unassigned _ _ _ _ _ _ hnone => simp [hrefl.symm.indexOf?_eq_none hnone] at hname
      | finished _ _ _ _ _ _ _ _ _ hfinished =>
          have hclosed := hnames ▸ hopen name hpath
          exact absurd (mem_names_of_lookup _ _ _ hfinished) hclosed
      | cycle _ _ _ _ _ _ _ _ _ hwalk =>
          refine ih hwalk hrest hopen hnames ?_
          simp [hreports]
      | visit _ _ _ _ _ _ _ _ _ _ _ _ hnot => exact absurd hpath hnot
  | visit path name _ trail middle _ _ _ index rule hname hrule hpath hnew hinner _ ihinner
      ihrest =>
      have hfresh : name ∉ trail.names := (lookup_eq_none_iff _ name).mp hnew
      have hrefl := hsame name List.mem_cons_self name .refl
      have hrest := fun name hm => hsame name (List.mem_cons_of_mem _ hm)
      cases h' with
      | unassigned _ _ _ _ _ _ hnone => simp [hrefl.symm.indexOf?_eq_none hnone] at hname
      | finished _ _ _ _ _ _ _ _ _ hfinished =>
          have hstill := hnames ▸ hfresh
          exact absurd (mem_names_of_lookup _ _ _ hfinished) hstill
      | cycle _ _ _ _ _ _ _ _ hm => exact absurd hm hpath
      | visit _ _ _ _ middle' _ _ _ _ rule' _ hrule' _ hnew' hinner' hwalk =>
          -- Below the name its own references are walked along first.
          have hmentions := hrefl.mentions_eq rule rule' hrule hrule'
          rw [← hmentions] at hinner'
          obtain ⟨hfinished, hfound⟩ := ihinner hinner'
            (fun next hm last hreach =>
              hsame name List.mem_cons_self last (.head ⟨rule, hrule, hm⟩ hreach))
            (List.forall_mem_cons.mpr ⟨hfresh, hopen⟩) hnames hreports
          refine ihrest hwalk hrest (fun above habove => ?_) ?_ hfound
          · have hne : above ≠ name := fun he => hpath (he ▸ habove)
            have hstill := hinner.lookup_eq_none above (List.mem_cons_of_mem _ habove)
              ((lookup_eq_none_iff _ above).mpr (hopen above habove))
            simp only [Trail.names_finish, List.mem_cons, hne, false_or]
            exact (lookup_eq_none_iff _ above).mp hstill
          · simp [hfinished]

variable (grammar other)

-- What binding reports hangs on the names that can be reached from the start,
-- and on what is mentioned under them.
theorem reports_bind_eq (h : grammar.Settled) (hother : other.Settled) (start : String)
    (hsame : ∀ name, Relation.ReflTransGen grammar.Mentions start name →
      grammar.SameMentions other name) :
    (grammar.bind start).2 = (other.bind start).2 := by
  have hstart := hsame start .refl
  cases hindex : grammar.indexOf? start with
  | none => simp only [bind, hindex, hstart.indexOf?_eq_none hindex]
  | some index =>
      obtain ⟨index', hindex'⟩ := other.exists_indexOf? start
        (hstart.mem_names_iff.mp (grammar.mem_names_of_indexOf? start index hindex))
      obtain ⟨_, last, hwalk, hbind⟩ := grammar.bind_walk h start index hindex
      obtain ⟨_, last', hwalk', hbind'⟩ := other.bind_walk hother start index' hindex'
      have hsame' : ∀ name ∈ [start], ∀ next,
          Relation.ReflTransGen grammar.nextPass.Mentions name next →
            grammar.nextPass.SameMentions other.nextPass next := by
        intro name hname next hreach
        rw [List.mem_singleton.mp hname, mentions_nextPass] at hreach
        exact (sameMentions_nextPass.trans (hsame next hreach)).trans sameMentions_nextPass.symm
      have hagree := hwalk.agree hwalk' hsame' (by simp) rfl rfl
      rw [hbind, hbind', hagree.2]

end Grammar

end PhraseGrammar
