import PhraseGrammar.Generator
import PhraseGrammar.Proofs.Ensemble.Reachable

namespace PhraseGrammar

theorem append_ne_empty {opening ending : String} (h : opening ≠ "" ∨ ending ≠ "") :
    opening ++ ending ≠ "" := by
  intro hempty
  obtain ⟨hopening, hending⟩ := String.append_eq_empty_iff.mp hempty
  exact h.elim (· hopening) (· hending)

-- Every text ends in words of its own, but for that of a place in a text, which
-- ends in the words of its cause.
theorem Diagnostic.message_ne_empty (diagnostic : Diagnostic) : diagnostic.message ≠ "" := by
  cases diagnostic with
  | unreadable line column cause => exact append_ne_empty (.inl (append_ne_empty (.inr (by simp))))
  | missingStart name => exact append_ne_empty (.inr (by simp))
  | recursiveExpansion name => exact append_ne_empty (.inr (by simp))
  | missingLocal name => exact append_ne_empty (.inr (by simp))
  | duplicate name => exact append_ne_empty (.inr (by simp))

theorem joinedMessages_ne_empty (diagnostics : List Diagnostic) (h : diagnostics ≠ []) :
    joinedMessages diagnostics ≠ "" := by
  obtain ⟨first, rest, rfl⟩ := List.exists_cons_of_ne_nil h
  have hfirst := first.message_ne_empty
  cases rest with
  | nil => simpa only [joinedMessages, List.map_cons, List.map_nil, String.intercalate_singleton]
  | cons second rest =>
      rw [joinedMessages, List.map_cons, List.map_cons, String.intercalate_cons_cons]
      exact append_ne_empty (.inl (append_ne_empty (.inl hfirst)))

variable {ω : Type} [Weight ω]

-- What is wrong with a document that is to be bound to a start name. Nothing
-- is bound if something was wrong with its text.
def Document.faults (document : Document ω) (start : String) : List Diagnostic :=
  if document.hasErrors then document.diagnostics else (document.grammar.bind start).2

-- An ensemble with a grammar more at its end.
def Ensemble.extended (ensemble : Ensemble ω) (member : Member ω) : Ensemble ω :=
  { ensemble with
    members := ensemble.members ++ [member]
    table := ensemble.table ++ [ensemble.weight + member.grammar.weight] }

namespace Generator

def reporting (generator : Generator ω) (reports : List Diagnostic) : Generator ω :=
  { generator with diagnostics := generator.diagnostics ++ reports }

def holding (generator : Generator ω) (member : Member ω) : Generator ω :=
  { generator with ensemble := generator.ensemble.extended member }

-- Both ways of refusal keep what is wrong with the document, and nothing else
-- is kept of it.
theorem addWithStart_eq (generator : Generator ω) (document : Document ω) (start : String)
    (supply : IdentitySupply) :
    generator.addWithStart document start supply =
      if (document.faults start).isEmpty then
        (.ok supply.next, generator.holding ⟨supply.next, (document.grammar.bind start).1⟩,
          supply.rest)
      else
        (.error (document.faults start), generator.reporting (document.faults start), supply) := by
  by_cases hread : document.hasErrors = true
  · have hfaults : document.faults start = document.diagnostics := if_pos hread
    have hsome : document.diagnostics.isEmpty = false := by
      simpa only [Document.hasErrors, Bool.not_eq_true'] using hread
    simp only [addWithStart, hread, hfaults, hsome, if_true, Bool.false_eq_true, if_false,
      reporting]
  · have hfaults : document.faults start = (document.grammar.bind start).2 := if_neg hread
    simp only [addWithStart, hread, hfaults, Bool.false_eq_true, if_false, Ensemble.add_eq]
    cases (document.grammar.bind start).2.isEmpty <;> rfl

-- The text of a refusal is about the new reports alone.
theorem tryAddWithStart_eq (generator : Generator ω) (document : Document ω) (start : String)
    (supply : IdentitySupply) :
    generator.tryAddWithStart document start supply =
      ((generator.addWithStart document start supply).1.mapError joinedMessages,
        (generator.addWithStart document start supply).2) := by
  rw [tryAddWithStart, addWithStart_eq]
  cases (document.faults start).isEmpty with
  | true => rfl
  | false => simp [reporting, Except.mapError]

-- The ways to add a document.
inductive Attempt (ω : Type) where
  | add (document : Document ω)
  | addWithStart (document : Document ω) (start : String)
  | tryAddWithStart (document : Document ω) (start : String)

-- What a generator can be asked for. Others take identities from the same
-- supply in between.
inductive Request (ω : Type) where
  | attempt (attempt : Attempt ω)
  | remove (identity : Nat)
  | generate (context : Context)
  | equalize (enable : Bool)
  | withSource (source : Source ω)
  | clear
  | clearDiagnostics
  | elsewhere (taken : Nat)

inductive Answer where
  | added (identity : Option Nat)
  | tried (outcome : Except String Nat)
  | removed (held : Bool)
  | phrase (outcome : Except Abort String)
  | done

def Answer.identity? : Answer → Option Nat
  | .added identity => identity
  | .tried outcome => outcome.toOption
  | _ => none

namespace Attempt

def document : Attempt ω → Document ω
  | .add document => document
  | .addWithStart document _ => document
  | .tryAddWithStart document _ => document

-- The start name that the document is bound to, given that of the generator.
def start (startSymbol : String) : Attempt ω → String
  | .add _ => startSymbol
  | .addWithStart _ start => start
  | .tryAddWithStart _ start => start

def faults (startSymbol : String) (attempt : Attempt ω) : List Diagnostic :=
  attempt.document.faults (attempt.start startSymbol)

end Attempt

def attempt (generator : Generator ω) (supply : IdentitySupply) :
    Attempt ω → Answer × Generator ω × IdentitySupply
  | .add document =>
      let (outcome, after) := generator.add document supply
      (.added outcome.toOption, after)
  | .addWithStart document start =>
      let (outcome, after) := generator.addWithStart document start supply
      (.added outcome.toOption, after)
  | .tryAddWithStart document start =>
      let (outcome, after) := generator.tryAddWithStart document start supply
      (.tried outcome, after)

def perform (generator : Generator ω) (supply : IdentitySupply) :
    Request ω → Answer × Generator ω × IdentitySupply
  | .attempt attempt => generator.attempt supply attempt
  | .remove identity =>
      let (held, after) := generator.remove identity
      (.removed held, after, supply)
  | .generate context =>
      let (outcome, after) := generator.generate context
      (.phrase outcome, after, supply)
  | .equalize enable => (.done, generator.equalize enable, supply)
  | .withSource source => (.done, generator.withSource source, supply)
  | .clear => (.done, generator.clear, supply)
  | .clearDiagnostics => (.done, generator.clearDiagnostics, supply)
  | .elsewhere taken => (.done, generator, ⟨supply.next + taken⟩)

def run (generator : Generator ω) (supply : IdentitySupply) :
    List (Request ω) → List Answer × Generator ω × IdentitySupply
  | [] => ([], generator, supply)
  | request :: rest =>
      let (answer, generator, supply) := generator.perform supply request
      let (answers, generator, supply) := run generator supply rest
      (answer :: answers, generator, supply)

-- All attempts do the same and differ in the form of the answer.
def Attempt.answer (outcome : Except (List Diagnostic) Nat) : Attempt ω → Answer
  | .add _ => .added outcome.toOption
  | .addWithStart _ _ => .added outcome.toOption
  | .tryAddWithStart _ _ => .tried (outcome.mapError joinedMessages)

omit [Weight ω] in
theorem Attempt.identity?_answer (attempt : Attempt ω) (outcome : Except (List Diagnostic) Nat) :
    (attempt.answer outcome).identity? = outcome.toOption := by
  cases attempt <;> cases outcome <;> rfl

theorem attempt_eq (generator : Generator ω) (supply : IdentitySupply) (attempt : Attempt ω) :
    generator.attempt supply attempt =
      (attempt.answer (generator.addWithStart attempt.document
          (attempt.start generator.startSymbol) supply).1,
        (generator.addWithStart attempt.document (attempt.start generator.startSymbol)
          supply).2) := by
  cases attempt with
  | add document => rfl
  | addWithStart document start => rfl
  | tryAddWithStart document start => simp only [Generator.attempt, tryAddWithStart_eq]; rfl

section Attempts

variable (generator : Generator ω) (supply : IdentitySupply) (attempt : Attempt ω)

theorem attempt_of_faults (h : attempt.faults generator.startSymbol ≠ []) :
    generator.attempt supply attempt =
      (attempt.answer (.error (attempt.faults generator.startSymbol)),
        generator.reporting (attempt.faults generator.startSymbol), supply) := by
  have hsome : (attempt.document.faults (attempt.start generator.startSymbol)).isEmpty = false :=
    List.isEmpty_eq_false_iff.mpr h
  rw [attempt_eq, addWithStart_eq, hsome, if_neg Bool.false_ne_true]
  rfl

theorem attempt_of_no_faults (h : attempt.faults generator.startSymbol = []) :
    generator.attempt supply attempt =
      (attempt.answer (.ok supply.next),
        generator.holding
          ⟨supply.next, (attempt.document.grammar.bind (attempt.start generator.startSymbol)).1⟩,
        supply.rest) := by
  have hnone : (attempt.document.faults (attempt.start generator.startSymbol)).isEmpty = true :=
    List.isEmpty_iff.mpr h
  rw [attempt_eq, addWithStart_eq, hnone, if_pos rfl]

theorem diagnostics_attempt :
    (generator.attempt supply attempt).2.1.diagnostics =
      generator.diagnostics ++ attempt.faults generator.startSymbol := by
  by_cases h : attempt.faults generator.startSymbol = []
  · rw [attempt_of_no_faults generator supply attempt h, h, List.append_nil]
    rfl
  · rw [attempt_of_faults generator supply attempt h]
    rfl

@[simp] theorem startSymbol_attempt :
    (generator.attempt supply attempt).2.1.startSymbol = generator.startSymbol := by
  by_cases h : attempt.faults generator.startSymbol = []
  · rw [attempt_of_no_faults generator supply attempt h]
    rfl
  · rw [attempt_of_faults generator supply attempt h]
    rfl

end Attempts

-- The same answers have been given, and what is left differs in diagnostics
-- only.
structure Agree {α : Type} (left right : α × Generator ω × IdentitySupply) : Prop where
  answer : left.1 = right.1
  generator : left.2.1.clearDiagnostics = right.2.1.clearDiagnostics
  supply : left.2.2 = right.2.2

omit [Weight ω] in
theorem eq_of_clearDiagnostics (generator other : Generator ω)
    (h : generator.clearDiagnostics = other.clearDiagnostics) :
    other = { generator with diagnostics := other.diagnostics } := by
  simp only [clearDiagnostics, mk.injEq, true_and] at h
  obtain ⟨hensemble, hsource, hstart⟩ := h
  rw [hensemble, hsource, hstart]

section Runs

variable (generator other : Generator ω) (supply : IdentitySupply)
  (h : generator.clearDiagnostics = other.clearDiagnostics)

include h

-- No answer depends on the diagnostics that are kept.
theorem agree_perform (request : Request ω) :
    Agree (generator.perform supply request) (other.perform supply request) := by
  rw [generator.eq_of_clearDiagnostics other h]
  cases request with
  | attempt attempt =>
      let changed := { generator with diagnostics := other.diagnostics }
      by_cases hfaults : attempt.faults generator.startSymbol = []
      · rw [perform, perform, generator.attempt_of_no_faults supply attempt hfaults,
          changed.attempt_of_no_faults supply attempt hfaults]
        exact ⟨rfl, rfl, rfl⟩
      · rw [perform, perform, generator.attempt_of_faults supply attempt hfaults,
          changed.attempt_of_faults supply attempt hfaults]
        exact ⟨rfl, rfl, rfl⟩
  | remove identity => exact ⟨rfl, rfl, rfl⟩
  | generate context => exact ⟨rfl, rfl, rfl⟩
  | equalize enable => exact ⟨rfl, rfl, rfl⟩
  | withSource source => exact ⟨rfl, rfl, rfl⟩
  | clear => exact ⟨rfl, rfl, rfl⟩
  | clearDiagnostics => exact ⟨rfl, rfl, rfl⟩
  | elsewhere taken => exact ⟨rfl, rfl, rfl⟩

theorem agree_run (requests : List (Request ω)) :
    Agree (generator.run supply requests) (other.run supply requests) := by
  induction requests generalizing generator other supply with
  | nil => exact ⟨rfl, h, rfl⟩
  | cons request rest ih =>
      have hfirst := agree_perform generator other supply h request
      have hrest := ih _ _ (generator.perform supply request).2.2 hfirst.generator
      simp only [run, ← hfirst.answer, ← hfirst.supply]
      exact ⟨congrArg (_ :: ·) hrest.answer, hrest.generator, hrest.supply⟩

end Runs

namespace Request

-- What a request adds to the diagnostics of a generator.
def faults (startSymbol : String) : Request ω → List Diagnostic
  | .attempt tried => tried.faults startSymbol
  | _ => []

def clears : Request ω → Bool
  | .clear => true
  | .clearDiagnostics => true
  | _ => false

end Request

section Reports

variable (generator : Generator ω) (supply : IdentitySupply)

@[simp] theorem startSymbol_perform (request : Request ω) :
    (generator.perform supply request).2.1.startSymbol = generator.startSymbol := by
  cases request with
  | attempt attempt => exact startSymbol_attempt generator supply attempt
  | _ => rfl

theorem diagnostics_perform (request : Request ω) (h : request.clears = false) :
    (generator.perform supply request).2.1.diagnostics =
      generator.diagnostics ++ request.faults generator.startSymbol := by
  cases request with
  | attempt attempt => exact diagnostics_attempt generator supply attempt
  | clear => exact absurd h Bool.noConfusion
  | clearDiagnostics => exact absurd h Bool.noConfusion
  | _ => exact (List.append_nil _).symm

theorem diagnostics_run (requests : List (Request ω))
    (h : ∀ request ∈ requests, request.clears = false) :
    (generator.run supply requests).2.1.diagnostics =
      generator.diagnostics ++ requests.flatMap (·.faults generator.startSymbol) := by
  induction requests generalizing generator supply with
  | nil => exact (List.append_nil _).symm
  | cons request rest ih =>
      obtain ⟨hfirst, hrest⟩ := List.forall_mem_cons.mp h
      rw [run, ih _ _ hrest, startSymbol_perform, diagnostics_perform _ _ _ hfirst,
        List.append_assoc, List.flatMap_cons]

theorem tryAddWithStart_of_faults (document : Document ω) (start : String)
    (h : document.faults start ≠ []) :
    (generator.tryAddWithStart document start supply).1 =
      .error (joinedMessages (document.faults start)) := by
  rw [tryAddWithStart_eq, addWithStart_eq, List.isEmpty_eq_false_iff.mpr h,
    if_neg Bool.false_ne_true]
  rfl

end Reports

-- What comes of an attempt. What is wrong with the document is reported, all
-- of it and nothing else, and then nothing else has happened that any later
-- request could notice. If nothing is wrong, its bound grammar has joined the
-- others at the end.
structure Accounted (generator : Generator ω) (supply : IdentitySupply) (attempt : Attempt ω)
    (result : Answer × Generator ω × IdentitySupply) : Prop where
  reported : result.2.1.diagnostics =
    generator.diagnostics ++ attempt.faults generator.startSymbol
  refused : result.1.identity? = none ↔ attempt.faults generator.startSymbol ≠ []
  unchanged (hfaults : attempt.faults generator.startSymbol ≠ []) :
    result.2 = (generator.reporting (attempt.faults generator.startSymbol), supply)
  unnoticed (hfaults : attempt.faults generator.startSymbol ≠ []) (requests : List (Request ω)) :
    Agree (result.2.1.run result.2.2 requests) (generator.run supply requests)
  given (hfaults : attempt.faults generator.startSymbol = []) :
    result.1.identity? = some supply.next
  joined (hfaults : attempt.faults generator.startSymbol = []) :
    result.2 = (generator.holding
      ⟨supply.next, (attempt.document.grammar.bind (attempt.start generator.startSymbol)).1⟩,
      supply.rest)

theorem accounted_attempt (generator : Generator ω) (supply : IdentitySupply)
    (attempt : Attempt ω) :
    Accounted generator supply attempt (generator.attempt supply attempt) := by
  by_cases h : attempt.faults generator.startSymbol = []
  · have hattempt := attempt_of_no_faults generator supply attempt h
    have hgiven : (generator.attempt supply attempt).1.identity? = some supply.next := by
      rw [hattempt]
      exact attempt.identity?_answer _
    refine ⟨diagnostics_attempt generator supply attempt, ?_, (absurd h ·), (absurd h ·),
      fun _ => hgiven, fun _ => by rw [hattempt]⟩
    rw [hgiven]
    exact ⟨nofun, (absurd h ·)⟩
  · have hattempt := attempt_of_faults generator supply attempt h
    refine ⟨diagnostics_attempt generator supply attempt, ?_, fun _ => by rw [hattempt],
      fun _ requests => ?_, (absurd · h), (absurd · h)⟩
    · rw [hattempt]
      exact ⟨fun _ => h, fun _ => attempt.identity?_answer _⟩
    · rw [hattempt]
      exact agree_run (generator.reporting _) generator supply rfl requests

-- Every attempt is accounted for, and a refusal in words has the words of all
-- new diagnostics. Until they are cleared, the diagnostics record what was
-- wrong with each document in turn.
theorem additions_are_accounted (generator : Generator ω) (supply : IdentitySupply) :
    (∀ attempt : Attempt ω,
      Accounted generator supply attempt (generator.attempt supply attempt)) ∧
      (∀ (document : Document ω) (start : String), document.faults start ≠ [] →
        (generator.tryAddWithStart document start supply).1 =
            .error (joinedMessages (document.faults start)) ∧
          joinedMessages (document.faults start) ≠ "") ∧
      ∀ requests : List (Request ω), (∀ request ∈ requests, request.clears = false) →
        (generator.run supply requests).2.1.diagnostics =
          generator.diagnostics ++ requests.flatMap (·.faults generator.startSymbol) := by
  refine ⟨accounted_attempt generator supply, fun document start h => ?_,
    diagnostics_run generator supply⟩
  exact ⟨tryAddWithStart_of_faults generator supply document start h,
    joinedMessages_ne_empty _ h⟩

-- A document that could not be read, one without the start name and a sound one
-- come to a generator with a diagnostic from before.
def seasoned : Generator Rat :=
  (ofSource (Source.ofList [])).reporting [.missingStart "x"]

def unread : Document Rat := ⟨Grammar.empty, [.unreadable 1 8 .textExpected, .missingLocal "_a"]⟩

def sound : Document Rat :=
  let rule := Rule.ofChoices [Choice.empty.push (.literal "y")] false [] none
  ⟨(Grammar.empty.insert "b" rule).1, []⟩

def additions : List (Request Rat) :=
  [.attempt (.add unread), .attempt (.tryAddWithStart sound "b"), .generate (Context.ofList []),
    .attempt (.add sound)]

theorem additions_to_seasoned :
    (seasoned.attempt .first (.add sound)).2 = (seasoned.reporting [.missingStart "main"], .first) ∧
      (seasoned.attempt .first (.addWithStart sound "b")).1.identity? = some 1 ∧
      (seasoned.tryAddWithStart unread "main" .first).1 =
        .error (joinedMessages [.unreadable 1 8 .textExpected, .missingLocal "_a"]) ∧
      (seasoned.run .first additions).2.1.diagnostics =
        [.missingStart "x", .unreadable 1 8 .textExpected, .missingLocal "_a",
          .missingStart "main"] := by
  obtain ⟨hattempts, hwords, hrun⟩ := additions_are_accounted seasoned .first
  refine ⟨(hattempts (.add sound)).unchanged (by decide),
    (hattempts (.addWithStart sound "b")).given (by decide),
    (hwords unread "main" (by decide)).1, ?_⟩
  rw [hrun additions (by decide)]
  rfl

end Generator

end PhraseGrammar
