namespace PhraseGrammar.Reading

-- Lines and columns are counted from one, columns in characters.
structure Position where
  line : Nat
  column : Nat
  deriving DecidableEq, Repr

namespace Position

def start : Position := ⟨1, 1⟩

def next (position : Position) (character : Char) : Position :=
  if character = '\n' then ⟨position.line + 1, 1⟩ else ⟨position.line, position.column + 1⟩

def after (position : Position) (text : List Char) : Position :=
  text.foldl next position

@[simp] theorem after_append (position : Position) (left right : List Char) :
    position.after (left ++ right) = (position.after left).after right :=
  List.foldl_append

-- Lines are counted by their newlines.
@[simp] theorem line_after (position : Position) (text : List Char) :
    (position.after text).line = position.line + text.count '\n' := by
  induction text generalizing position with
  | nil => rfl
  | cons character rest ih =>
      rw [after, List.foldl_cons, ← after, ih, List.count_cons]
      by_cases h : character = '\n' <;> simp [next, h]
      omega

end Position

-- What is left to read of a text, and where that is.
structure Cursor where
  rest : List Char
  position : Position
  deriving DecidableEq, Repr

namespace Cursor

def ofText (text : List Char) : Cursor := ⟨text, Position.start⟩

def current (cursor : Cursor) : Char := cursor.rest.headD '\x00'

def following (cursor : Cursor) : Char := cursor.rest.tail.headD '\x00'

def atEnd (cursor : Cursor) : Bool := cursor.rest.isEmpty

def nearEnd (cursor : Cursor) : Bool := cursor.rest.tail.isEmpty

-- Moves to the next character. At the end the cursor stays.
def advance : Cursor → Cursor
  | ⟨[], position⟩ => ⟨[], position⟩
  | ⟨character :: rest, position⟩ => ⟨rest, position.next character⟩

def forward : Nat → Cursor → Cursor
  | 0, cursor => cursor
  | count + 1, cursor => forward count cursor.advance

@[simp] theorem rest_advance (cursor : Cursor) : cursor.advance.rest = cursor.rest.tail := by
  obtain ⟨rest, position⟩ := cursor
  cases rest <;> rfl

@[simp] theorem rest_forward (count : Nat) (cursor : Cursor) :
    (cursor.forward count).rest = cursor.rest.drop count := by
  induction count generalizing cursor with
  | zero => rfl
  | succ count ih => rw [forward, ih, rest_advance, List.drop_tail]

@[simp] theorem position_forward (count : Nat) (cursor : Cursor) :
    (cursor.forward count).position = cursor.position.after (cursor.rest.take count) := by
  induction count generalizing cursor with
  | zero => rfl
  | succ count ih =>
      obtain ⟨rest, position⟩ := cursor
      rw [forward, ih]
      cases rest with
      | nil => simp [advance]
      | cons character rest => rfl

end Cursor

end PhraseGrammar.Reading
