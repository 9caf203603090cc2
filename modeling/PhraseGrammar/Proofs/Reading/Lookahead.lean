import Mathlib.Data.List.DropRight
import PhraseGrammar.Proofs.Reading.Advances

namespace PhraseGrammar.Reading

-- Columns are counted from the last newline.
theorem Position.column_after_start (text : List Char) :
    (start.after text).column = 1 + (text.rtakeWhile (· != '\n')).length := by
  induction text using List.reverseRecOn with
  | nil => rfl
  | append_singleton text character ih =>
      rw [after_append, show (start.after text).after [character] =
        (start.after text).next character from rfl, next]
      by_cases h : character = '\n'
      · rw [if_pos h, List.rtakeWhile_concat_neg _ _ _ (by simp [h])]
        rfl
      · rw [if_neg h, List.rtakeWhile_concat_pos _ _ _ (by simp [h]), List.length_append, ih,
          Nat.add_assoc, List.length_singleton]

theorem Position.line_after_start (text : List Char) :
    (start.after text).line = 1 + text.count '\n' :=
  line_after start text

-- What can be seen of a text at one place.
structure View where
  current : Char
  following : Char
  atEnd : Bool
  nearEnd : Bool
  position : Position
  deriving DecidableEq, Repr

namespace View

-- A NUL stands for a character that is not there. It can also be one that is.
structure Shows (text : List Char) (place : Nat) (view : View) : Prop where
  current : view.current = text[place]?.getD '\x00'
  following : view.following = text[place + 1]?.getD '\x00'
  atEnd : view.atEnd = true ↔ place = text.length
  nearEnd : view.nearEnd = true ↔ text.length ≤ place + 1
  line : view.position.line = 1 + (text.take place).count '\n'
  column : view.position.column = 1 + ((text.take place).rtakeWhile (· != '\n')).length

end View

def Cursor.view (cursor : Cursor) : View :=
  ⟨cursor.current, cursor.following, cursor.atEnd, cursor.nearEnd, cursor.position⟩

theorem Cursor.shows_forward (text : List Char) (place : Nat) (h : place ≤ text.length) :
    ((ofText text).forward place).view.Shows text place := by
  have hcursor : (ofText text).forward place =
      ⟨text.drop place, Position.start.after (text.take place)⟩ :=
    forward_eq place text Position.start
  rw [hcursor]
  constructor
  · simp only [view, current, List.headD_eq_head?_getD, List.head?_drop]
  · simp only [view, following, List.headD_eq_head?_getD, List.tail_drop, List.head?_drop]
  · simp only [view, atEnd, List.isEmpty_iff, List.drop_eq_nil_iff]
    omega
  · simp only [view, nearEnd, List.isEmpty_iff, List.tail_drop, List.drop_eq_nil_iff]
  · exact Position.line_after_start _
  · exact Position.column_after_start _

-- The same with two characters held ready, which are taken from a text one by
-- one: the current one and the one that follows it.
structure Lookahead where
  unread : List Char
  current? : Option Char
  following? : Option Char
  position : Position

namespace Lookahead

-- Nothing more is taken once the text has ended.
def next (current? : Option Char) (unread : List Char) : Option Char × List Char :=
  match current? with
  | some _ => (unread.head?, unread.tail)
  | none => (none, unread)

def ofText (text : List Char) : Lookahead :=
  let (following?, unread) := next text.head? text.tail
  ⟨unread, text.head?, following?, Position.start⟩

def advance (lookahead : Lookahead) : Lookahead :=
  match lookahead.current? with
  | none => lookahead
  | some character =>
      let (following?, unread) := next lookahead.following? lookahead.unread
      ⟨unread, lookahead.following?, following?, lookahead.position.next character⟩

def forward : Nat → Lookahead → Lookahead
  | 0, lookahead => lookahead
  | count + 1, lookahead => forward count lookahead.advance

def view (lookahead : Lookahead) : View :=
  ⟨lookahead.current?.getD '\x00', lookahead.following?.getD '\x00', lookahead.current?.isNone,
    lookahead.following?.isNone, lookahead.position⟩

-- The two characters are the next two, and the rest is unread.
def ofCursor (cursor : Cursor) : Lookahead :=
  ⟨cursor.rest.tail.tail, cursor.rest.head?, cursor.rest.tail.head?, cursor.position⟩

theorem ofText_eq (text : List Char) : ofText text = ofCursor (Cursor.ofText text) := by
  cases text <;> rfl

theorem advance_ofCursor (cursor : Cursor) :
    (ofCursor cursor).advance = ofCursor cursor.advance := by
  obtain ⟨rest, position⟩ := cursor
  match rest with
  | [] => rfl
  | [_] => rfl
  | _ :: _ :: _ => rfl

theorem forward_ofCursor (count : Nat) (cursor : Cursor) :
    (ofCursor cursor).forward count = ofCursor (cursor.forward count) := by
  induction count generalizing cursor with
  | zero => rfl
  | succ count ih => rw [forward, advance_ofCursor, ih, Cursor.forward]

theorem view_ofCursor (cursor : Cursor) : (ofCursor cursor).view = cursor.view := by
  obtain ⟨rest, position⟩ := cursor
  match rest with
  | [] => rfl
  | [_] => rfl
  | _ :: _ :: _ => rfl

end Lookahead

theorem Cursor.advance_of_rest_nil (cursor : Cursor) (h : cursor.rest = []) :
    cursor.advance = cursor := by
  obtain ⟨rest, position⟩ := cursor
  subst h
  rfl

theorem Cursor.advance_of_head? (cursor : Cursor) (character : Char)
    (h : cursor.rest.head? = some character) :
    cursor.atEnd = false ∧
      cursor.advance = ⟨cursor.rest.tail, cursor.position.next character⟩ := by
  obtain ⟨rest, position⟩ := cursor
  obtain ⟨tail, rfl⟩ := List.head?_eq_some_iff.mp h
  exact ⟨rfl, rfl⟩

-- After any number of steps a cursor shows the text at as many characters from
-- its start, or its end if there are fewer. It passes every character, be it a
-- NUL, and stays at the end. What holds two characters ready does the same.
theorem cursor_shows_text (text : List Char) (count : Nat) :
    ((Cursor.ofText text).forward count).view.Shows text (min count text.length) ∧
      (text.length ≤ count →
        ((Cursor.ofText text).forward count).advance = (Cursor.ofText text).forward count) ∧
      (∀ character, text[count]? = some character →
        ((Cursor.ofText text).forward count).atEnd = false ∧
          ((Cursor.ofText text).forward count).advance = ⟨text.drop (count + 1),
            ((Cursor.ofText text).forward count).position.next character⟩) ∧
      (Lookahead.ofText text).forward count =
        Lookahead.ofCursor ((Cursor.ofText text).forward count) ∧
      ((Lookahead.ofText text).forward count).view =
        ((Cursor.ofText text).forward count).view := by
  have hrest : ((Cursor.ofText text).forward count).rest = text.drop count :=
    Cursor.rest_forward count (Cursor.ofText text)
  have hready : (Lookahead.ofText text).forward count =
      Lookahead.ofCursor ((Cursor.ofText text).forward count) := by
    rw [Lookahead.ofText_eq, Lookahead.forward_ofCursor]
  refine ⟨?_, fun hcount => ?_, fun character hcharacter => ?_, hready, ?_⟩
  · rw [Cursor.forward_min]
    exact Cursor.shows_forward text _ (Nat.min_le_right _ _)
  · exact Cursor.advance_of_rest_nil _ (hrest.trans (List.drop_of_length_le hcount))
  · have hhead : ((Cursor.ofText text).forward count).rest.head? = some character := by
      rw [hrest, List.head?_drop, hcharacter]
    have hpassed := Cursor.advance_of_head? _ character hhead
    rwa [hrest, List.tail_drop] at hpassed
  · rw [hready, Lookahead.view_ofCursor]

-- The first character is a NUL, and it is passed as one column.
theorem cursor_passes_nul :
    ((Cursor.ofText ['\x00', '\n', 'b']).forward 0).view =
        ⟨'\x00', '\n', false, false, ⟨1, 1⟩⟩ ∧
      ((Cursor.ofText ['\x00', '\n', 'b']).forward 0).advance = ⟨['\n', 'b'], ⟨1, 2⟩⟩ ∧
      ((Cursor.ofText ['\x00', '\n', 'b']).forward 7).advance =
        (Cursor.ofText ['\x00', '\n', 'b']).forward 7 := by
  obtain ⟨_, _, hpassed, _⟩ := cursor_shows_text ['\x00', '\n', 'b'] 0
  obtain ⟨_, hend, _⟩ := cursor_shows_text ['\x00', '\n', 'b'] 7
  exact ⟨by decide, (hpassed '\x00' rfl).2, hend (by decide)⟩

end PhraseGrammar.Reading
