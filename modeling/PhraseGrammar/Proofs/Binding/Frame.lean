import PhraseGrammar.Proofs.Binding.Agreement
import PhraseGrammar.Proofs.Binding.Content
import PhraseGrammar.Proofs.Binding.Recursion
import PhraseGrammar.Proofs.Inlining.Kept
import PhraseGrammar.Proofs.Rule.AtRest

namespace PhraseGrammar

variable {ω : Type}

namespace Grammar

-- No rule is being bound, and none inside a rule is.
def AtRest (grammar : Grammar ω) : Prop :=
  ∀ assignment ∈ grammar.assignments, assignment.rule.AtRest

theorem keptByInlining_atRest : KeptByInlining fun rule : Rule ω => rule.AtRest :=
  fun _ hresolve rule pass => rule.atRest_inlined hresolve pass

section Steps

variable (grammar : Grammar ω)

theorem AtRest.insert (h : grammar.AtRest) (name : String) (rule : Rule ω) :
    (grammar.insert name rule).1.AtRest := by
  unfold Grammar.insert
  split
  · exact h
  · exact List.forall_mem_append.mpr ⟨h, List.forall_mem_singleton.mpr rule.atRest_unlinked⟩

theorem AtRest.merge (other : Grammar ω) (h : grammar.AtRest) : (grammar.merge other).1.AtRest := by
  intro assignment hassignment
  rcases mem_overwriteAll _ _ _ hassignment with hold | ⟨rule, hnew⟩
  · exact h assignment hold
  · rw [hnew]
    exact rule.atRest_unlinked

theorem AtRest.inlineLocals (h : grammar.AtRest) : grammar.inlineLocals.1.AtRest :=
  grammar.kept_inlineLocals keptByInlining_atRest h

theorem AtRest.nextPass (h : grammar.AtRest) : grammar.nextPass.AtRest := by
  unfold Grammar.nextPass
  split
  · intro assignment hassignment
    obtain ⟨old, hold, rfl⟩ := List.mem_map.mp hassignment
    exact (h old hold).marked old.rule .unbound nofun
  · exact h

end Steps

variable [Weight ω]

section Walks

variable {grammar : Grammar ω} {path names : List String} {trail last : Trail ω}
  {given : List (Option (Nat × Tally ω))}

-- A walk finishes nothing but what the names that it starts with refer to.
theorem Walk.finished_reached (h : grammar.Walk path names trail given last)
    (reached : String → Prop)
    (hstep : ∀ name other, reached name → grammar.Refers name other → reached other)
    (hnames : ∀ name ∈ names, name ∈ grammar.names → reached name)
    (htrail : ∀ name ∈ trail.names, reached name) : ∀ name ∈ last.names, reached name := by
  induction h with
  | nil => exact htrail
  | unassigned _ _ _ _ _ _ _ _ ih =>
      exact ih (fun name hm => hnames name (List.mem_cons_of_mem _ hm)) htrail
  | finished _ _ _ _ _ _ _ _ _ _ _ ih =>
      exact ih (fun name hm => hnames name (List.mem_cons_of_mem _ hm)) htrail
  | cycle _ _ _ _ _ _ _ _ _ _ ih =>
      exact ih (fun name hm => hnames name (List.mem_cons_of_mem _ hm)) htrail
  | visit _ name _ _ _ _ _ _ index rule hname hrule _ _ _ _ ihinner ihrest =>
      have hreached : reached name :=
        hnames name List.mem_cons_self (grammar.mem_names_of_indexOf? name index hname)
      have hmiddle := ihinner (fun other hm ho => hstep name other hreached ⟨rule, hrule, hm, ho⟩)
        htrail
      exact ihrest (fun other hm => hnames other (List.mem_cons_of_mem _ hm))
        (List.forall_mem_cons.mpr ⟨hreached, hmiddle⟩)

end Walks

variable (grammar : Grammar ω)

theorem atRest_closed (rule : Rule ω) (h : rule.AtRest) (given : List (Option (Nat × Tally ω))) :
    (grammar.closed rule given).AtRest :=
  (rule.atRest_bound nextAnswer given h).marked _ (.bound grammar.passes) nofun

-- A rule is taken apart while it is being bound, but never left like that.
theorem AtRest.bind (h : grammar.AtRest) (hsettled : grammar.Settled) (start : String) :
    (grammar.bind start).1.AtRest := by
  cases hstart : grammar.indexOf? start with
  | none =>
      simp only [Grammar.bind, hstart]
      exact h
  | some index =>
      obtain ⟨_, last, hwalk, hbind⟩ := grammar.bind_walk hsettled start index hstart
      have hnext := h.nextPass grammar
      have hclosed := hwalk.exists_closed (by simp)
      rw [hbind]
      intro assignment hassignment
      obtain ⟨old, hold, rfl⟩ := List.mem_map.mp hassignment
      cases hfinished : last.finished.lookup old.name with
      | none => exact hnext old hold
      | some bound =>
          obtain ⟨rule, given, hrule, hmade⟩ :=
            hclosed _ (mem_of_lookup _ _ _ hfinished)
          rw [Option.getD_some, show bound = _ from hmade]
          exact grammar.nextPass.atRest_closed rule
            (hnext _ (grammar.nextPass.mem_of_rule? _ rule hrule)) given

theorem Reachable.atRest (h : grammar.Reachable) : grammar.AtRest := by
  induction h with
  | empty => exact nofun
  | insert grammar name rule _ ih => exact ih.insert grammar name rule
  | merge grammar other _ _ ih _ => exact ih.merge grammar other
  | inlineLocals grammar _ ih => exact ih.inlineLocals grammar
  | bind grammar start h ih => exact ih.bind grammar h.settled start

-- A rule that the start does not lead to stays as it is, but that its mark is
-- taken off when the numbers of passes start again.
theorem rule?_bind_of_not_reached (h : grammar.Settled) (start name : String)
    (hname : ¬ Relation.ReflTransGen grammar.Refers start name) :
    (grammar.bind start).1.rule? name =
      if grammar.passes = lastPass ∧ start ∈ grammar.names then
        (grammar.rule? name).map fun rule => rule.marked .unbound
      else grammar.rule? name := by
  cases hstart : grammar.indexOf? start with
  | none =>
      have hmissing : start ∉ grammar.names := (grammar.indexOf?_eq_none_iff start).mp hstart
      rw [if_neg fun hnew => hmissing hnew.2]
      simp only [rule?_eq_find?, bind, hstart]
  | some index =>
      have hassigned := grammar.mem_names_of_indexOf? start index hstart
      obtain ⟨_, last, hwalk, hbind⟩ := grammar.bind_walk h start index hstart
      have hreached := hwalk.finished_reached (Relation.ReflTransGen grammar.Refers start)
        (fun _ _ hreach hrefers => hreach.tail (grammar.refers_nextPass ▸ hrefers))
        (fun other hother _ => List.mem_singleton.mp hother ▸ .refl) (List.forall_mem_nil _)
      have hlookup : last.finished.lookup name = none :=
        (lookup_eq_none_iff _ _).mpr fun hm => hname (hreached name hm)
      have hadopt : (grammar.bind start).1.assignments =
          grammar.nextPass.adopt last.finished := by rw [hbind]
      rw [grammar.nextPass.rule?_of_adopt last.finished _ hadopt, rule?_nextPass, Option.map_map]
      by_cases hlast : grammar.passes = lastPass <;>
        simp [Function.comp_def, hlookup, hassigned, nextMark, hlast]

theorem start_bind_isSome_iff (h : grammar.Settled) (start : String) :
    (grammar.bind start).1.start.isSome ↔ (grammar.bind start).2 = [] := by
  rw [grammar.start_bind h]
  split
  · rename_i hreports
    refine iff_of_true ?_ hreports
    cases hstart : grammar.indexOf? start with
    | none => simp [bind, hstart] at hreports
    | some index => rfl
  · exact iff_of_false Bool.false_ne_true ‹_›

-- Whether it succeeds or not, binding leaves the names, their places and all
-- that the rules say. Nothing is changed about a rule that the start does not
-- lead to, but for the marks, which are taken off all rules when the numbers of
-- passes start again. No rule is left half bound, and there is a start only
-- after a success.
theorem bind_changes_only_what_it_reaches (h : grammar.Reachable) (start : String) :
    (grammar.bind start).1.names = grammar.names ∧
    (∀ name, (grammar.bind start).1.indexOf? name = grammar.indexOf? name) ∧
    (∀ name, ((grammar.bind start).1.rule? name).map Rule.content =
      (grammar.rule? name).map Rule.content) ∧
    (∀ name, ¬ Relation.ReflTransGen grammar.Refers start name →
      (grammar.bind start).1.rule? name =
        if grammar.passes = lastPass ∧ start ∈ grammar.names then
          (grammar.rule? name).map fun rule => rule.marked .unbound
        else grammar.rule? name) ∧
    (grammar.bind start).1.AtRest ∧
    ((grammar.bind start).1.start.isSome ↔ (grammar.bind start).2 = []) := by
  have hsettled := h.settled
  have hnames := grammar.names_bind start hsettled
  refine ⟨hnames, fun name => ?_, grammar.content_bind hsettled start,
    grammar.rule?_bind_of_not_reached hsettled start,
    (h.atRest grammar).bind grammar hsettled start, grammar.start_bind_isSome_iff hsettled start⟩
  rw [indexOf?, hnames, indexOf?]

-- Two rules that refer to each other, and one that refers to them and has been
-- bound before.
def overlooked : Grammar Rat := ((ring.insert "aside" (sequence ["a", "c"])).1.bind "aside").1

-- A binding that fails changes the rules on its way and leaves the other one.
theorem bind_overlooked :
    overlooked.Reachable ∧ (overlooked.bind "main").2 = [.recursiveExpansion "a"] ∧
      (overlooked.bind "main").1.names = ["main", "a", "b", "c", "aside"] ∧
      ((overlooked.bind "main").1.rule? "a").map Rule.content =
        (overlooked.rule? "a").map Rule.content ∧
      (overlooked.bind "main").1.rule? "aside" = overlooked.rule? "aside" ∧
      (overlooked.rule? "aside").map Rule.mark = some (.bound 1) ∧
      (overlooked.bind "main").1.AtRest ∧ (overlooked.bind "main").1.start = none := by
  have hring : ring.Reachable :=
    .insert _ _ _ (.insert _ _ _ (.insert _ _ _ (.insert _ _ _ .empty)))
  have hreachable : overlooked.Reachable := .bind _ _ (.insert _ _ _ hring)
  have hreports : (overlooked.bind "main").2 = [.recursiveExpansion "a"] := by decide
  obtain ⟨hnames, _, hcontent, hrules, hrest, hstart⟩ :=
    bind_changes_only_what_it_reaches overlooked hreachable "main"
  have hclosed : ∀ name ∈ ["main", "a", "b", "c", "x"],
      ((overlooked.rule? name).map Rule.mentions).getD [] ⊆ ["main", "a", "b", "c", "x"] := by
    decide
  have haside : ¬ Relation.ReflTransGen overlooked.Refers "main" "aside" := fun hreach =>
    absurd (overlooked.reach_mem _ hclosed "main" "aside" (by decide)
      (Relation.ReflTransGen.mono (fun _ _ => Refers.mentions) _ _ hreach)) (by decide)
  have hpasses : ¬ (overlooked.passes = lastPass ∧ "main" ∈ overlooked.names) := by decide
  refine ⟨hreachable, hreports, hnames.trans (by decide), hcontent "a", ?_, by decide, hrest, ?_⟩
  · exact (hrules "aside" haside).trans (if_neg hpasses)
  · rw [hreports] at hstart
    simpa using hstart

-- Two rules that refer to nothing, the second with a mark.
def idlers (mark : Mark) (start : Option Nat) (passes : Nat) : Grammar Rat :=
  ⟨[⟨"main", sequence []⟩, ⟨"aside", (sequence []).marked mark⟩], start, passes⟩

theorem bind_idlers (mark : Mark) (start : Option Nat) (passes : Nat) (hpasses : passes < lastPass)
    (hmark : mark ≠ .inProgress ∧ mark ≠ .bound (passes + 1)) :
    (idlers mark start passes).bind "aside" =
      (idlers (.bound (passes + 1)) (some 1) (passes + 1), []) := by
  have hindex : (idlers mark start passes).indexOf? "aside" = some 1 := rfl
  have hnext : (idlers mark start passes).nextPass = idlers mark start (passes + 1) :=
    if_neg (Nat.ne_of_lt hpasses)
  have hlength : (idlers mark start (passes + 1)).assignments.length = 1 + 1 := rfl
  have hvisit := (idlers mark start (passes + 1)).visit_of_fresh 1 1
    ⟨(idlers mark start (passes + 1)).assignments, []⟩ ((sequence []).marked mark) rfl hmark
  simp only [bind, hindex, hnext, hlength, hvisit]
  rfl

-- The two rules after the second has been bound so many times.
def worn : Nat → Grammar Rat
  | 0 => ((empty.insert "main" (sequence [])).1.insert "aside" (sequence [])).1
  | count + 1 => ((worn count).bind "aside").1

theorem worn_reachable (count : Nat) : (worn count).Reachable := by
  induction count with
  | zero => exact .insert _ _ _ (.insert _ _ _ .empty)
  | succ count ih => exact .bind _ _ ih

theorem worn_eq (count : Nat) (h : count < lastPass) :
    worn (count + 1) = idlers (.bound (count + 1)) (some 1) (count + 1) := by
  induction count with
  | zero =>
      have hfirst : worn 0 = idlers .unbound none 0 := rfl
      rw [worn, hfirst, bind_idlers .unbound none 0 h ⟨nofun, nofun⟩]
  | succ count ih =>
      have hmark : Mark.bound (count + 1) ≠ .bound (count + 1 + 1) := by simp
      rw [worn, ih (Nat.lt_of_succ_lt h),
        bind_idlers (.bound (count + 1)) (some 1) (count + 1) h ⟨nofun, hmark⟩]

-- The pass after the last one takes the mark off a rule that it does not reach.
theorem bind_unmarks_unreached :
    (worn lastPass).Reachable ∧ ¬ Relation.ReflTransGen (worn lastPass).Refers "main" "aside" ∧
      ((worn lastPass).rule? "aside").map Rule.mark = some (.bound lastPass) ∧
      (((worn lastPass).bind "main").1.rule? "aside").map Rule.mark = some .unbound := by
  have hworn : worn lastPass = idlers (.bound lastPass) (some 1) lastPass := by
    obtain ⟨count, hcount⟩ : ∃ count, lastPass = count + 1 := ⟨lastPass - 1, rfl⟩
    rw [hcount]
    exact worn_eq count (by omega)
  have hreachable := worn_reachable lastPass
  rw [hworn] at hreachable ⊢
  have hidle : ¬ Relation.ReflTransGen (idlers (.bound lastPass) (some 1) lastPass).Refers "main"
      "aside" := by
    intro hreach
    rcases hreach.cases_head with heq | ⟨_, ⟨rule, hrule, hmention, _⟩, _⟩
    · exact absurd heq (by decide)
    · obtain rfl : sequence [] = rule := Option.some.inj hrule
      exact absurd hmention (List.not_mem_nil)
  refine ⟨hreachable, hidle, rfl, ?_⟩
  rw [rule?_bind_of_not_reached _ hreachable.settled "main" "aside" hidle, if_pos ⟨rfl, by decide⟩]
  rfl

end Grammar

end PhraseGrammar
