import Std.Data.HashMap
import PhraseGrammar.Character.Set
import PhraseGrammar.Character.Utf8
import PhraseGrammar.Regex.Automaton.Draft

namespace PhraseGrammar.Regex

open PhraseGrammar.Character

-- A draft and the states in it that the forms of one set share. A state is
-- known by a key, the numbers that describe its steps. There is a fixed number
-- of places for keys, and a key that comes to a place drives another one out.
structure Sharing where
  draft : Draft
  places : Nat
  entries : Std.HashMap Nat (List Nat × Nat)

-- How many places there are for states that are read forward, and for those
-- that are read backward.
def forwardPlaces : Nat := 10000

def backwardPlaces : Nat := 1000

def keyHash (key : List Nat) : UInt64 :=
  key.foldl (fun hash number => (hash ^^^ UInt64.ofNat number) * 1099511628211)
    14695981039346656037

namespace Sharing

def start (draft : Draft) (places : Nat) : Sharing := ⟨draft, places, ∅⟩

def placeOf (sharing : Sharing) (key : List Nat) : Nat :=
  (keyHash key).toNat % sharing.places

def find? (sharing : Sharing) (key : List Nat) : Option Nat :=
  match sharing.entries[sharing.placeOf key]? with
  | some (other, state) => if other = key then some state else none
  | none => none

-- The state with a key. A new one is added if no such state is known.
def state (sharing : Sharing) (key : List Nat) (add : Draft → Draft) : Nat × Sharing :=
  match sharing.find? key with
  | some state => (state, sharing)
  | none =>
      let place := sharing.placeOf key
      match sharing with
      | ⟨draft, places, entries⟩ =>
          let state := draft.states
          (state, ⟨add draft, places, entries.insert place (key, state)⟩)

-- The state from which the forms lead to `target`, where forms that start with
-- the same bytes go together. The states behind it come first. No form is
-- longer than `length`.
def forward (target : Nat) : (length : Nat) → List ByteForm → Sharing → Nat × Sharing
  | 0, _, sharing => (target, sharing)
  | _, [] :: _, sharing => (target, sharing)
  | length + 1, forms, sharing =>
      let groups := forms.splitBy fun left right => left.head? == right.head?
      let (key, sharing) := groups.foldl
        (fun (key, sharing) group =>
          match group with
          | (range :: _) :: _ =>
              let (next, sharing) := forward target length (group.map List.tail) sharing
              (key ++ [range.first, range.last, next], sharing)
          | _ => (key, sharing))
        ([], sharing)
      sharing.state key fun draft => draft.addTable groups.length

-- The state from which a form leads to `target` when it is read from its end.
def backwardForm (target : Nat) (form : ByteForm) (sharing : Sharing) : Nat × Sharing :=
  form.foldl
    (fun (next, sharing) range =>
      sharing.state [next, range.first, range.last] Draft.addState)
    (target, sharing)

-- Every form takes a branch of the fork that leads to all of them.
def backward (target : Nat) : List ByteForm → Sharing → Sharing
  | [], sharing => sharing
  | form :: rest, sharing =>
      match (backwardForm target form sharing).2 with
      | ⟨draft, places, entries⟩ => backward target rest ⟨draft.addBranches 1, places, entries⟩

end Sharing

end PhraseGrammar.Regex
