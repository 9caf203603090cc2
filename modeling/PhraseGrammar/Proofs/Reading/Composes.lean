import PhraseGrammar.Proofs.Reading.Reads

namespace PhraseGrammar

-- Whether a numeral that has been taken from the text is said to be no number.
def Cause.refusesNumeral : Cause → Bool
  | .numberExpected _ => true
  | _ => false

namespace Reading

section Readers

variable {ω : Type}

-- Reads the rule that stands in braces and makes it part of a draft.
def readInner (readInline : Reader (Rule ω)) (finish : Rule ω → Draft ω) : Reader (Draft ω) := do
  skipBlanks true
  let rule ← readInline
  return finish rule

-- Reads a group up to its closing brace.
def readGroup (text : List Char) (draft : Draft ω) : Reader (Draft ω) := do
  let body := text.takeWhile (· != '}')
  if body.length = text.length then
    skip (body.length + 1)
    fail .openBrace
  skip (body.length + 2)
  return draft.addGroup body

end Readers

-- A property of readers that what is composed of them has as well. A failure
-- may lack it only if it is about a numeral.
structure Composes (holds : ∀ {α : Type}, Reader α → Prop) : Prop where
  pure {α : Type} (value : α) : holds (pure value)
  fail {α : Type} (cause : Cause) (hcause : cause.refusesNumeral = false) :
    holds (fail cause : Reader α)
  remaining : holds remaining
  skip (count : Nat) : holds (skip count)
  bind {α β : Type} {first : Reader α} {next : α → Reader β} (hfirst : holds first)
    (hnext : ∀ value, holds (next value)) : holds (first >>= next)

variable {holds : ∀ {α : Type}, Reader α → Prop} (h : Composes holds) {α : Type}

include h

-- The failure that a condition calls for, or what comes next.
theorem composed_unless (condition : Prop) [Decidable condition] (cause : Cause)
    (hcause : cause.refusesNumeral = false) {next : Unit → Reader α} (hnext : holds (next ())) :
    holds (if condition then fail cause >>= next else next ()) := by
  split
  · exact h.bind (h.fail cause hcause) fun _ => hnext
  · exact hnext

theorem composed_readWhile (property : Char → Bool) : holds (readWhile property) :=
  h.bind h.remaining fun _ => h.bind (h.skip _) fun _ => h.pure _

theorem composed_skipComment : holds skipComment := by
  refine h.bind h.remaining fun text => h.bind (h.skip _) fun _ => ?_
  split
  · exact h.fail _ rfl
  · exact h.pure _

theorem composed_skipBlanks (newlines : Bool) : holds (skipBlanks newlines) := by
  refine h.bind h.remaining fun text => h.bind (h.skip _) fun _ => ?_
  split
  · exact h.fail _ rfl
  · exact h.pure _

theorem composed_skipToContinuation : holds skipToContinuation := by
  refine h.bind (composed_skipBlanks h false) fun _ => h.bind h.remaining fun text => ?_
  split
  · exact h.bind (h.skip 1) fun _ => composed_skipBlanks h false
  · exact h.pure _

theorem composed_readName : holds readName :=
  h.bind (composed_readWhile h _) fun _ => composed_unless h _ _ rfl (h.pure _)

theorem composed_readOperator : holds readOperator := by
  refine h.bind h.remaining fun text => ?_
  split
  · exact h.bind (h.skip 1) fun _ => h.pure _
  · exact h.bind (h.skip 2) fun _ => h.pure _
  · exact h.bind (h.skip 1) fun _ => h.fail _ rfl
  · exact h.fail _ rfl

theorem composed_closeInline : holds closeInline := by
  refine h.bind (composed_skipBlanks h true) fun _ => h.bind h.remaining fun text => ?_
  split
  · exact h.skip 1
  · exact h.fail _ rfl

section Directives

theorem composed_readSeparator : holds readSeparator := by
  refine h.bind h.remaining fun text => ?_
  cases text with
  | nil => exact h.fail _ rfl
  | cons separator rest =>
      refine composed_unless h _ _ rfl (composed_unless h _ _ rfl (composed_unless h _ _ rfl ?_))
      exact h.bind (h.skip 1) fun _ => h.pure _

theorem composed_readBounded (separator : Char) (mayBeEmpty : Bool) :
    holds (readBounded separator mayBeEmpty) := by
  refine h.bind (composed_readWhile h _) fun text => composed_unless h _ _ rfl ?_
  refine h.bind h.remaining fun rest => composed_unless h _ _ rfl ?_
  exact h.bind (h.skip 1) fun _ => h.pure _

theorem composed_readGlobalFlag : holds readGlobalFlag := by
  refine h.bind h.remaining fun text => ?_
  split
  · exact h.bind (h.skip 1) fun _ => h.pure _
  · exact h.pure _

variable (compile : Compiler)

theorem composed_readDirective : holds (readDirective compile) := by
  refine h.bind (composed_readSeparator h) fun separator => ?_
  refine h.bind (composed_readBounded h separator false) fun pattern => ?_
  refine h.bind (composed_readBounded h separator true) fun replacement => ?_
  refine h.bind (composed_readGlobalFlag h) fun global => ?_
  split
  · exact h.pure _
  · exact h.fail _ rfl

theorem composed_readMoreDirectives (steps : Nat) (transforms : List Transform) :
    holds (readMoreDirectives compile steps transforms) := by
  induction steps generalizing transforms with
  | zero => exact h.pure _
  | succ steps ih =>
      refine h.bind h.remaining fun text => ?_
      split
      · refine h.bind (h.skip 1) fun _ => ?_
        refine h.bind (composed_skipToContinuation h) fun _ => ?_
        refine h.bind (composed_readDirective h compile) fun transform => ?_
        exact h.bind (composed_skipBlanks h false) fun _ => ih _
      · exact h.pure _

theorem composed_readDirectives : holds (readDirectives compile) :=
  h.bind h.remaining fun _ => composed_readMoreDirectives h compile _ _

end Directives

section Choices

variable {ω : Type}

theorem composed_readGroup (text : List Char) (draft : Draft ω) :
    holds (readGroup text draft) := by
  rw [readGroup]
  dsimp only
  split
  · exact h.bind (h.skip _) fun _ => h.bind (h.fail _ rfl) fun _ =>
      h.bind (h.skip _) fun _ => h.pure _
  · exact h.bind (h.skip _) fun _ => h.pure _

variable {readInline : Reader (Rule ω)} (hinline : holds readInline)

include hinline

theorem composed_readInner (finish : Rule ω → Draft ω) : holds (readInner readInline finish) :=
  h.bind (composed_skipBlanks h true) fun _ => h.bind hinline fun _ => h.pure _

theorem composed_readBraces (draft : Draft ω) : holds (readBraces readInline draft) := by
  refine h.bind h.remaining fun text => ?_
  split
  · exact h.bind (h.skip 3) fun _ => h.pure _
  · exact h.bind (h.skip 3) fun _ => h.pure _
  · exact h.bind (h.skip 2) fun _ => composed_readInner h hinline _
  · exact h.bind (h.skip 3) fun _ => composed_readInner h hinline _
  · exact composed_readGroup h _ draft

theorem composed_readQuotedBody (quote : Char) (steps : Nat) (draft : Draft ω) :
    holds (readQuotedBody readInline quote steps draft) := by
  induction steps generalizing draft with
  | zero => exact h.pure _
  | succ steps ih =>
      refine h.bind h.remaining fun text => ?_
      cases text with
      | nil => exact h.pure _
      | cons character rest =>
          dsimp only
          split
          · exact h.pure _
          · split
            · exact h.bind (composed_readBraces h hinline draft) fun _ => ih _
            · exact h.bind (h.skip 1) fun _ => ih _

theorem composed_readBareBody (steps : Nat) (draft : Draft ω) (spaces : List Char) :
    holds (readBareBody readInline steps draft spaces) := by
  induction steps generalizing draft spaces with
  | zero => exact h.pure _
  | succ steps ih =>
      refine h.bind h.remaining fun text => ?_
      split
      · exact h.pure _
      · exact h.bind (composed_skipComment h) fun _ => ih _ _
      · exact h.bind (composed_readBraces h hinline _) fun _ => ih _ _
      · split
        · exact h.pure _
        · split
          · exact h.bind (h.skip 1) fun _ => ih _ _
          · exact h.bind (h.skip 1) fun _ => ih _ _

variable [Weight ω]

theorem composed_readBare : holds (readBare readInline) :=
  h.bind h.remaining fun _ => h.bind (composed_readBareBody h hinline _ _ _) fun _ => h.pure _

variable (hweight : holds (readWeight : Reader (Option ω)))

include hweight

theorem composed_readQuoted (quote : Char) : holds (readQuoted readInline quote) := by
  refine h.bind (h.skip 1) fun _ => h.bind h.remaining fun text => ?_
  refine h.bind (composed_readQuotedBody h hinline quote _ _) fun draft => ?_
  refine h.bind h.remaining fun rest => composed_unless h _ _ rfl ?_
  refine h.bind (h.skip 1) fun _ => ?_
  refine h.bind (composed_skipBlanks h false) fun _ => ?_
  exact h.bind hweight fun _ => h.pure _

theorem composed_readChoice : holds (readChoice readInline) := by
  refine h.bind h.remaining fun text => ?_
  cases text with
  | nil => exact h.fail _ rfl
  | cons character rest =>
      dsimp only
      split
      · exact h.fail _ rfl
      · split
        · exact composed_readQuoted h hinline hweight character
        · exact composed_readBare h hinline

theorem composed_readMoreChoices (steps : Nat) (choices : List (Choice ω)) :
    holds (readMoreChoices readInline steps choices) := by
  induction steps generalizing choices with
  | zero => exact h.pure _
  | succ steps ih =>
      refine h.bind h.remaining fun text => ?_
      split
      · refine h.bind (h.skip 1) fun _ => ?_
        refine h.bind (composed_skipToContinuation h) fun _ => ?_
        refine h.bind (composed_readChoice h hinline hweight) fun _ => ?_
        exact h.bind (composed_skipBlanks h false) fun _ => ih _
      · exact h.pure _

theorem composed_readChoices : holds (readChoices readInline) := by
  refine h.bind (composed_readChoice h hinline hweight) fun choice => ?_
  refine h.bind (composed_skipBlanks h false) fun _ => ?_
  exact h.bind h.remaining fun _ => composed_readMoreChoices h hinline hweight _ _

end Choices

section Assignments

variable {ω : Type} [Weight ω] (hweight : holds (readWeight : Reader (Option ω)))
  (compile : Compiler)

theorem composed_readInline (depth : Nat)
    (hrule : holds (readRule compile depth : Reader (Rule ω))) :
    holds (readInline compile depth : Reader (Rule ω)) :=
  h.bind hrule fun _ => h.bind (composed_closeInline h) fun _ => h.pure _

include hweight

theorem composed_readRule (depth : Nat) : holds (readRule compile depth : Reader (Rule ω)) := by
  induction depth with
  | zero => exact h.fail _ rfl
  | succ depth ih =>
      rw [readRule_succ]
      refine h.bind (composed_readChoices h (composed_readInline h compile depth ih) hweight) ?_
      exact fun choices => h.bind (composed_readDirectives h compile) fun _ => h.pure _

theorem composed_readAssignment :
    holds (readAssignment compile : Reader (Option (Assignment ω))) := by
  refine h.bind (composed_skipBlanks h true) fun _ => h.bind h.remaining fun text => ?_
  split
  · exact h.pure _
  · refine h.bind (composed_readName h) fun name => ?_
    refine h.bind (composed_skipBlanks h false) fun _ => ?_
    refine h.bind hweight fun weight => ?_
    refine h.bind (composed_skipBlanks h false) fun _ => ?_
    refine h.bind (composed_readOperator h) fun equalized => ?_
    refine h.bind (composed_skipToContinuation h) fun _ => ?_
    refine h.bind h.remaining fun rest => ?_
    refine h.bind (composed_readRule h hweight compile _) fun rule => ?_
    refine h.bind h.remaining fun left => ?_
    split
    · exact h.pure _
    · exact h.pure _
    · exact h.fail _ rfl

theorem composed_readInto (grammar : Grammar ω) : holds (readInto compile grammar) := by
  refine h.bind (composed_readAssignment h hweight compile) fun read => ?_
  split
  · exact h.pure _
  · split
    · exact h.pure _
    · exact h.fail _ rfl

end Assignments

end Reading

end PhraseGrammar
