import PhraseGrammar.Grammar.Binding
import PhraseGrammar.Grammar.Generation
import PhraseGrammar.Grammar.Inlining

namespace PhraseGrammar.Grammar

variable {ω : Type}

-- The grammar without its binding.
def unbound (grammar : Grammar ω) : Grammar ω := { grammar with start := none }

-- What can be asked of a grammar. The source of a generation belongs to whoever
-- asks for a phrase.
inductive Call (ω : Type) where
  | insert (name : String) (rule : Rule ω)
  | merge (other : Grammar ω)
  | inlineLocals
  | bind (start : String)
  | generate (context : Context) (equalizeAll : Bool) (source : Source ω)
  | binding
  | rules

inductive Reply (ω : Type) where
  | inserted (refusal : Option Diagnostic)
  | reported (reports : List Diagnostic)
  | bound (success : Bool) (reports : List Diagnostic)
  | phrase (outcome : Except Abort String) (source : Source ω)
  | binding (valid : Bool) (start : Option String) (weight : ω) (combinations : Nat)
  | rules (assignments : List (Assignment ω))

-- Every other call makes the grammar forget its binding or binds it anew.
def Call.asks : Call ω → Bool
  | .generate _ _ _ => true
  | .binding => true
  | .rules => true
  | _ => false

theorem head?_dropWhile_asks (calls : List (Call ω)) :
    ∀ call ∈ (calls.dropWhile Call.asks).head?, call.asks = false := by
  intro call hcall
  have hnot := List.head?_dropWhile_not Call.asks calls
  rw [Option.mem_def.mp hcall] at hnot
  exact hnot

def perform [Weight ω] (grammar : Grammar ω) : Call ω → Reply ω × Grammar ω
  | .insert name rule =>
      let (grammar, refusal) := grammar.insert name rule
      (.inserted refusal, grammar)
  | .merge other =>
      let (grammar, reports) := grammar.merge other
      (.reported reports, grammar)
  | .inlineLocals =>
      let (grammar, reports) := grammar.inlineLocals
      (.reported reports, grammar)
  | .bind start =>
      let (grammar, reports) := grammar.bind start
      (.bound grammar.start.isSome reports, grammar)
  | .generate context equalizeAll source =>
      let (outcome, source) := grammar.generate context equalizeAll source
      (.phrase outcome source, grammar)
  | .binding =>
      (.binding grammar.start.isSome grammar.startName? grammar.weight grammar.combinations,
        grammar)
  | .rules => (.rules grammar.assignments, grammar)

def run [Weight ω] (grammar : Grammar ω) : List (Call ω) → List (Reply ω) × Grammar ω
  | [] => ([], grammar)
  | call :: rest =>
      let (reply, grammar) := grammar.perform call
      let (replies, grammar) := run grammar rest
      (reply :: replies, grammar)

-- The replies to calls that are all put to the grammar as it is.
def answers [Weight ω] (grammar : Grammar ω) (calls : List (Call ω)) : List (Reply ω) :=
  calls.map fun call => (grammar.perform call).1

section Unbound

variable (grammar : Grammar ω)

theorem insert_of_refusal (name : String) (rule : Rule ω) (refusal : Diagnostic)
    (h : (grammar.insert name rule).2 = some refusal) :
    grammar.insert name rule = (grammar.unbound, some (.duplicate name)) := by
  unfold Grammar.insert at h ⊢
  split at h
  · rfl
  · exact absurd h nofun

-- Nothing that changes a grammar looks at its binding.
@[simp] theorem resolveLocal_unbound (depth : Nat) (path : List String) :
    grammar.unbound.resolveLocal depth path = grammar.resolveLocal depth path := by
  induction depth generalizing path with
  | zero =>
      funext name pass
      rw [resolveLocal, resolveLocal]
      rfl
  | succ depth ih =>
      funext name pass
      simp only [resolveLocal, ih]
      rfl

@[simp] theorem inlineAssignments_unbound (assignments : List (Assignment ω))
    (pass : InliningPass ω) :
    grammar.unbound.inlineAssignments assignments pass =
      grammar.inlineAssignments assignments pass := by
  have hresolve := grammar.resolveLocal_unbound grammar.assignments.length []
  induction assignments generalizing pass with
  | nil => rfl
  | cons assignment rest ih =>
      rw [inlineAssignments, inlineAssignments]
      simp only [ih]
      rw [show grammar.unbound.assignments = grammar.assignments from rfl, hresolve]

@[simp] theorem inlineLocals_unbound : grammar.unbound.inlineLocals = grammar.inlineLocals := by
  unfold inlineLocals
  rw [inlineAssignments_unbound]
  rfl

@[simp] theorem nextPass_unbound : grammar.unbound.nextPass = grammar.nextPass.unbound := by
  unfold nextPass
  split
  · rw [if_pos ‹_›]
    rfl
  · rw [if_neg ‹_›]
    rfl

variable [Weight ω]

@[simp] theorem visit_unbound (depth : Nat) :
    grammar.unbound.visit depth = grammar.visit depth := by
  induction depth with
  | zero =>
      funext index pass
      rw [visit, visit]
      rfl
  | succ depth ih =>
      funext index pass
      simp only [visit, ih]
      rfl

@[simp] theorem bind_unbound (start : String) :
    grammar.unbound.bind start = grammar.bind start := by
  unfold bind
  rw [show grammar.unbound.indexOf? start = grammar.indexOf? start from rfl]
  cases grammar.indexOf? start with
  | none => rfl
  | some index =>
      simp only [nextPass_unbound, visit_unbound]
      rfl

theorem perform_unbound (call : Call ω) (h : call.asks = false) :
    grammar.unbound.perform call = grammar.perform call := by
  cases call with
  | insert name rule => rfl
  | merge other => rfl
  | inlineLocals => simp [perform]
  | bind start => simp [perform]
  | generate context equalizeAll source => exact absurd h Bool.noConfusion
  | binding => exact absurd h Bool.noConfusion
  | rules => exact absurd h Bool.noConfusion

end Unbound

variable [Weight ω] (grammar : Grammar ω)

theorem perform_of_asks (call : Call ω) (h : call.asks = true) :
    (grammar.perform call).2 = grammar := by
  cases call with
  | generate context equalizeAll source => rfl
  | binding => rfl
  | rules => rfl
  | _ => exact absurd h Bool.noConfusion

theorem run_append (first second : List (Call ω)) :
    grammar.run (first ++ second) =
      ((grammar.run first).1 ++ ((grammar.run first).2.run second).1,
        ((grammar.run first).2.run second).2) := by
  induction first generalizing grammar with
  | nil => rfl
  | cons call first ih => simp only [List.cons_append, run, ih]

theorem length_run (calls : List (Call ω)) : (grammar.run calls).1.length = calls.length := by
  induction calls generalizing grammar with
  | nil => rfl
  | cons call rest ih => simp only [run, List.length_cons, ih]

theorem run_of_asks (calls : List (Call ω)) (h : ∀ call ∈ calls, call.asks = true) :
    grammar.run calls = (grammar.answers calls, grammar) := by
  induction calls with
  | nil => rfl
  | cons call rest ih =>
      obtain ⟨hcall, hrest⟩ := List.forall_mem_cons.mp h
      simp only [run, grammar.perform_of_asks call hcall, ih hrest, answers, List.map_cons]

-- The binding is out of sight from the first change on.
theorem run_unbound (calls : List (Call ω)) (h : ∀ call ∈ calls.head?, call.asks = false) :
    (grammar.unbound.run calls).1 = (grammar.run calls).1 := by
  cases calls with
  | nil => rfl
  | cons call rest => simp only [run, grammar.perform_unbound call (h call rfl)]

-- Questions that come first are put to the grammar as it is.
theorem run_questions (calls : List (Call ω)) :
    (grammar.run calls).1 = grammar.answers (calls.takeWhile Call.asks) ++
      (grammar.run (calls.dropWhile Call.asks)).1 := by
  have hasked : ∀ call ∈ calls.takeWhile Call.asks, call.asks = true :=
    List.all_eq_true.mp List.all_takeWhile
  have hrun := grammar.run_append (calls.takeWhile Call.asks) (calls.dropWhile Call.asks)
  rw [List.takeWhile_append_dropWhile, run_of_asks _ _ hasked] at hrun
  rw [hrun]

theorem run_questions_unbound (calls : List (Call ω)) :
    (grammar.unbound.run calls).1 = grammar.unbound.answers (calls.takeWhile Call.asks) ++
      (grammar.run (calls.dropWhile Call.asks)).1 := by
  rw [run_questions, run_unbound _ _ (head?_dropWhile_asks calls)]

-- The replies of a run without that to a refused insertion are those of the run
-- that goes on with the unbound grammar.
theorem eraseIdx_run_of_refusal (before after : List (Call ω)) (name : String) (rule : Rule ω)
    (replies : List (Reply ω)) (reached : Grammar ω)
    (hbefore : grammar.run before = (replies, reached))
    (hinsert : reached.insert name rule = (reached.unbound, some (.duplicate name))) :
    (grammar.run (before ++ .insert name rule :: after)).1.eraseIdx before.length =
      replies ++ (reached.unbound.run after).1 := by
  have hlength : before.length = replies.length := by
    rw [← grammar.length_run before, hbefore]
  rw [run_append, hbefore, hlength]
  simp only [run, perform, hinsert, List.eraseIdx_append_of_length_le (Nat.le_refl _),
    Nat.sub_self, List.eraseIdx_cons_zero]

-- A refused insertion leaves all rules, but it unbinds the grammar. Questions
-- are answered by the unbound grammar until the next change, and from then on
-- nothing shows that the insertion was tried. If the grammar was not bound or
-- is changed next, nothing ever shows it.
theorem refused_insert_only_unbinds (before after : List (Call ω)) (name : String) (rule : Rule ω)
    (replies : List (Reply ω)) (reached : Grammar ω) (refusal : Diagnostic)
    (hbefore : grammar.run before = (replies, reached))
    (hrefused : (reached.insert name rule).2 = some refusal) :
    reached.insert name rule = (reached.unbound, some (.duplicate name)) ∧
    (grammar.run (before ++ .insert name rule :: after)).1.eraseIdx before.length =
      replies ++ (reached.unbound.answers (after.takeWhile Call.asks) ++
        (reached.run (after.dropWhile Call.asks)).1) ∧
    (grammar.run (before ++ after)).1 =
      replies ++ (reached.answers (after.takeWhile Call.asks) ++
        (reached.run (after.dropWhile Call.asks)).1) ∧
    (reached.start = none ∨ (∀ call ∈ after.head?, call.asks = false) →
      (grammar.run (before ++ .insert name rule :: after)).1.eraseIdx before.length =
        (grammar.run (before ++ after)).1) := by
  have hinsert := reached.insert_of_refusal name rule refusal hrefused
  have hwith := grammar.eraseIdx_run_of_refusal before after name rule replies reached hbefore
    hinsert
  have hwithout : (grammar.run (before ++ after)).1 = replies ++ (reached.run after).1 := by
    rw [run_append, hbefore]
  refine ⟨hinsert, ?_, ?_, ?_⟩
  · rw [hwith, run_questions_unbound]
  · rw [hwithout, run_questions]
  · rintro (hstart | hchange)
    · rw [hwith, hwithout, show reached.unbound = reached by rw [unbound, ← hstart]]
    · rw [hwith, hwithout, run_unbound _ _ hchange]

-- One name with one text, bound to it.
def firstOffer : List (Call Rat) :=
  [.insert "main" (.ofChoices [Choice.empty.push (.literal "x")] false [] none), .bind "main"]

def secondOffer : Rule Rat := .ofChoices [Choice.empty.push (.literal "y")] false [] none

-- After another binding the name generates its first text, as if no other had
-- been offered.
theorem rebound_after_refusal :
    ((empty.run firstOffer).2.insert "main" secondOffer).2 = some (.duplicate "main") ∧
      (empty.run (firstOffer ++ [.insert "main" secondOffer, .bind "main",
          .generate .empty false (.ofList [])])).1.eraseIdx 2 =
        (empty.run (firstOffer ++ [.bind "main", .generate .empty false (.ofList [])])).1 := by
  have hrefused :
      ((empty.run firstOffer).2.insert "main" secondOffer).2 = some (.duplicate "main") := by
    decide +kernel
  obtain ⟨_, _, _, hsame⟩ := refused_insert_only_unbinds empty firstOffer
    [.bind "main", .generate .empty false (.ofList [])] "main" secondOffer _ _ _ rfl hrefused
  exact ⟨hrefused, hsame (.inr fun call hcall => by cases hcall; rfl)⟩

def Reply.start? : Reply ω → Option String
  | .binding _ start _ _ => start
  | _ => none

-- Before it the grammar has no start, which it would have had.
theorem unbound_after_refusal :
    ((empty.run firstOffer).2.insert "main" secondOffer).2 = some (.duplicate "main") ∧
      (empty.run (firstOffer ++ [.insert "main" secondOffer, .binding])).1.eraseIdx 2 ≠
        (empty.run (firstOffer ++ [.binding])).1 := by
  refine ⟨by decide +kernel, fun hsame => ?_⟩
  have hstarts := congrArg (List.map Reply.start?) hsame
  exact absurd hstarts (by decide +kernel)

end PhraseGrammar.Grammar
