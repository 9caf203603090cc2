import PhraseGrammar.Regex.Pattern

namespace PhraseGrammar.Regex

open PhraseGrammar.Character

-- A step of a program and the position of the step that follows it. A fork
-- prefers the first of its two.
inductive Instruction where
  | consume (set : CharacterSet) (next : Nat)
  | check (assertion : Assertion) (next : Nat)
  | save (slot next : Nat)
  | fork (preferred other : Nat)
  | accept

abbrev Program := Array Instruction

-- The steps of a program under construction, the latest first, how many they
-- are, and the position at which the program is entered.
structure Code where
  steps : List Instruction
  count : Nat
  entry : Nat

namespace Code

-- Adds a step at the next position and enters the program there.
def push (code : Code) (instruction : Instruction) : Code :=
  ⟨instruction :: code.steps, code.count + 1, code.count⟩

def enterAt (code : Code) (entry : Nat) : Code := { code with entry := entry }

-- Goes on at `entry` or at `exit`, whichever a pattern prefers.
def option (code : Code) (exit : Nat) (greedy : Bool) : Code :=
  code.push (if greedy then .fork code.entry exit else .fork exit code.entry)

def times (step : Code → Code) : Nat → Code → Code
  | 0, code => code
  | count + 1, code => times step count (step code)

-- Any number of repetitions, at least one. The fork that follows a repetition
-- comes right after its `length` steps.
def oneOrMore (step : Code → Code) (length : Nat) (greedy : Bool) (code : Code) : Code :=
  let body := step (code.enterAt (code.count + length))
  (body.option code.entry greedy).enterAt body.entry

@[simp] theorem count_push (code : Code) (instruction : Instruction) :
    (code.push instruction).count = code.count + 1 := rfl

@[simp] theorem count_enterAt (code : Code) (entry : Nat) :
    (code.enterAt entry).count = code.count := rfl

@[simp] theorem count_option (code : Code) (exit : Nat) (greedy : Bool) :
    (code.option exit greedy).count = code.count + 1 := rfl

theorem count_times {step : Code → Code} {length : Nat}
    (h : ∀ code, (step code).count = code.count + length) (times : Nat) (code : Code) :
    (Code.times step times code).count = code.count + times * length := by
  induction times generalizing code with
  | zero => simp [Code.times]
  | succ times ih => rw [Code.times, ih, h, Nat.succ_mul]; omega

end Code

mutual

def Pattern.steps : Pattern → Nat
  | .empty => 0
  | .literal text => text.length
  | .oneOf _ | .require _ => 1
  | .sequence items => totalSteps items
  | .alternatives branches => totalSteps branches + (branches.length - 1)
  | .group _ body => body.steps + 2
  | .repeated body 0 none _ => body.steps + if body.nullable then 2 else 1
  | .repeated body (least + 1) none _ => body.steps + 1 + least * body.steps
  | .repeated body least (some most) _ =>
      (most - least) * (body.steps + 1) + least * body.steps

def totalSteps : List Pattern → Nat
  | [] => 0
  | first :: rest => first.steps + totalSteps rest

end

mutual

def Pattern.emit : Pattern → Code → Code
  | .empty, code => code
  | .literal text, code =>
      text.foldr (fun character code => code.push (.consume (.single character) code.entry)) code
  | .oneOf set, code => code.push (.consume set code.entry)
  | .require assertion, code => code.push (.check assertion code.entry)
  | .sequence items, code => emitAll items code
  | .alternatives branches, code => emitAny branches code.entry code
  | .group index body, code =>
      let inner := body.emit (code.push (.save (2 * index + 1) code.entry))
      inner.push (.save (2 * index) inner.entry)
  | .repeated body 0 none greedy, code =>
      let loop := Code.oneOrMore body.emit body.steps greedy code
      if body.nullable then loop.option code.entry greedy
      else loop.enterAt (code.count + body.steps)
  | .repeated body (least + 1) none greedy, code =>
      Code.times body.emit least (Code.oneOrMore body.emit body.steps greedy code)
  | .repeated body least (some most) greedy, code =>
      Code.times body.emit least
        (Code.times (fun inner => (body.emit inner).option code.entry greedy) (most - least) code)

def emitAll : List Pattern → Code → Code
  | [], code => code
  | first :: rest, code => first.emit (emitAll rest code)

-- Adds the branches, and in front of each but the last one the choice between
-- it and those after it. All of them go on at `exit`.
def emitAny : List Pattern → (exit : Nat) → Code → Code
  | [], _, code => code
  | [last], exit, code => last.emit (code.enterAt exit)
  | first :: rest, exit, code =>
      let others := emitAny rest exit code
      let branch := first.emit (others.enterAt exit)
      branch.push (.fork branch.entry others.entry)

end

theorem count_foldr_push (text : List Char) (code : Code) :
    (text.foldr (fun character code => code.push (.consume (.single character) code.entry))
      code).count = code.count + text.length := by
  induction text with
  | nil => rfl
  | cons character text ih =>
      simp [ih]
      omega

mutual

@[simp] theorem Pattern.count_emit (pattern : Pattern) (code : Code) :
    (pattern.emit code).count = code.count + pattern.steps := by
  match pattern with
  | .empty => rfl
  | .literal text => rw [Pattern.emit, count_foldr_push, Pattern.steps]
  | .oneOf _ => rfl
  | .require _ => rfl
  | .sequence items => rw [Pattern.emit, count_emitAll, Pattern.steps]
  | .alternatives branches => rw [Pattern.emit, count_emitAny, Pattern.steps]
  | .group index body =>
      rw [Pattern.emit, Code.count_push, body.count_emit, Code.count_push, Pattern.steps]; omega
  | .repeated body 0 none greedy =>
      have h := body.count_emit
      rw [Pattern.emit, Pattern.steps]
      split <;> simp only [Code.count_option, Code.oneOrMore, Code.count_enterAt, h] <;> omega
  | .repeated body (least + 1) none greedy =>
      have h := body.count_emit
      rw [Pattern.emit, Pattern.steps, Code.count_times h]
      simp only [Code.count_option, Code.oneOrMore, Code.count_enterAt, h]
      omega
  | .repeated body least (some most) greedy =>
      have h := body.count_emit
      have option : ∀ inner : Code,
          ((body.emit inner).option code.entry greedy).count = inner.count + (body.steps + 1) := by
        intro inner
        rw [Code.count_option, h]; omega
      rw [Pattern.emit, Pattern.steps, Code.count_times h, Code.count_times option]
      omega

@[simp] theorem count_emitAll (items : List Pattern) (code : Code) :
    (emitAll items code).count = code.count + totalSteps items := by
  match items with
  | [] => rfl
  | first :: rest =>
      rw [emitAll, first.count_emit, count_emitAll rest code, totalSteps]; omega

@[simp] theorem count_emitAny (branches : List Pattern) (exit : Nat) (code : Code) :
    (emitAny branches exit code).count =
      code.count + (totalSteps branches + (branches.length - 1)) := by
  match branches with
  | [] => rfl
  | [last] =>
      rw [emitAny, last.count_emit, Code.count_enterAt]
      simp [totalSteps]
  | first :: second :: rest =>
      rw [emitAny, Code.count_push, first.count_emit, Code.count_enterAt,
        count_emitAny (second :: rest) exit code]
      · simp only [totalSteps, List.length_cons]
        omega
      · simp

end

-- The program of a pattern. Slots 0 and 1 hold the ends of the whole match,
-- slots 2n and 2n + 1 those of group n.
def Pattern.code (pattern : Pattern) : Code :=
  (Pattern.group 0 pattern).emit ⟨[.accept], 1, 0⟩

def Code.program (code : Code) : Program := code.steps.reverse.toArray

end PhraseGrammar.Regex
