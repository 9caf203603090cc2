import PhraseGrammar.Regex.Program

namespace PhraseGrammar.Regex

-- The positions in a text that have been saved, by slot.
abbrev Slots := Array (Option Nat)

-- A place in a text: its position and the characters around it.
structure Place where
  position : Nat
  before : Option Char
  after : Option Char

structure Thread where
  state : Nat
  slots : Slots

-- The threads that wait for the next character, the preferred ones first. For
-- each state `reached` is one more than the latest position at which it has
-- been reached. Of two threads in one state the preferred one goes on.
structure Frontier where
  threads : Array Thread
  reached : Array Nat

def Frontier.start (program : Program) : Frontier :=
  ⟨#[], Array.replicate program.size 0⟩

-- Follows the steps that take no character. The threads still to be followed
-- come in the order of preference. Each state is followed once and leads to
-- two others at most, which bounds the number of steps.
def follow (program : Program) (place : Place) :
    (steps : Nat) → List Thread → Frontier → Frontier
  | 0, _, frontier => frontier
  | _, [], frontier => frontier
  | steps + 1, thread :: waiting, frontier =>
      let mark := place.position + 1
      if frontier.reached.getD thread.state mark = mark then
        follow program place steps waiting frontier
      else
        let frontier := { frontier with reached := frontier.reached.set! thread.state mark }
        match program[thread.state]? with
        | none => follow program place steps waiting frontier
        | some (.fork preferred other) =>
            follow program place steps
              (⟨preferred, thread.slots⟩ :: ⟨other, thread.slots⟩ :: waiting) frontier
        | some (.check assertion next) =>
            if assertion.holds place.before place.after then
              follow program place steps (⟨next, thread.slots⟩ :: waiting) frontier
            else
              follow program place steps waiting frontier
        | some (.save slot next) =>
            follow program place steps
              (⟨next, thread.slots.setIfInBounds slot (some place.position)⟩ :: waiting) frontier
        | some (.consume _ _) | some .accept =>
            follow program place steps waiting
              { frontier with threads := frontier.threads.push thread }

def Frontier.add (program : Program) (place : Place) (frontier : Frontier) (thread : Thread) :
    Frontier :=
  follow program place (2 * program.size + 1) [thread] frontier

-- Takes a character in all threads. A thread that accepts beats those after
-- it, which are dropped, and its slots are returned.
def step (program : Program) (character : Option Char) (place : Place) :
    List Thread → Frontier → Option Slots × Frontier
  | [], next => (none, next)
  | thread :: rest, next =>
      match program[thread.state]? with
      | some .accept => (some thread.slots, next)
      | some (.consume set state) =>
          if character.any set.contains then
            step program character place rest (next.add program place ⟨state, thread.slots⟩)
          else
            step program character place rest next
      | _ => step program character place rest next

-- A program to search with, where it is entered, and how many slots it saves.
structure Engine where
  program : Program
  entry : Nat
  slots : Nat

-- Goes through a text from a place on. While nothing has been found, a match
-- may start at each place, but earlier starts are preferred.
def advance (engine : Engine) : (text : List Char) → (before : Option Char) →
    (position : Nat) → Frontier → (found : Option Slots) → Option Slots
  | text, before, position, frontier, found =>
      let place : Place := ⟨position, before, text.head?⟩
      let frontier :=
        if found.isSome then frontier
        else frontier.add engine.program place ⟨engine.entry, Array.replicate engine.slots none⟩
      match frontier with
      | ⟨threads, reached⟩ =>
          match text with
          | [] => (step engine.program none place threads.toList ⟨#[], reached⟩).1 <|> found
          | character :: rest =>
              let (accepted, next) := step engine.program (some character)
                ⟨position + 1, some character, rest.head?⟩ threads.toList ⟨#[], reached⟩
              let found := accepted <|> found
              if next.threads.isEmpty && found.isSome then found
              else advance engine rest (some character) (position + 1) next found

def Engine.find (engine : Engine) (text : List Char) (start : Nat) : Option Slots :=
  let before := if start = 0 then none else text[start - 1]?
  advance engine (text.drop start) before start (Frontier.start engine.program) none

-- The ends of what a slot pair has saved.
def extent? (slots : Slots) (group : Nat) : Option (Nat × Nat) := do
  let first ← slots.getD (2 * group) none
  let last ← slots.getD (2 * group + 1) none
  return (first, last)

-- The matches in a text that follow one another. An empty match right after
-- the previous one does not count; the search then goes on one character
-- later. Each match moves the search on, so there is at most one for each
-- place.
def Engine.findAll (engine : Engine) (text : List Char) :
    (steps : Nat) → (start : Nat) → (previous : Option Nat) → List Slots
  | 0, _, _ => []
  | steps + 1, start, previous =>
      if start > text.length then [] else
      match engine.find text start with
      | none => []
      | some slots =>
          match extent? slots 0 with
          | none => []
          | some (first, last) =>
              if first = last && previous == some last then
                findAll engine text steps (start + 1) previous
              else
                slots :: findAll engine text steps last (some last)

end PhraseGrammar.Regex
