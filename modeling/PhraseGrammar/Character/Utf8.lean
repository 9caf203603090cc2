import PhraseGrammar.Character.Range

namespace PhraseGrammar.Character

structure ByteRange where
  first : Nat
  last : Nat
  deriving DecidableEq, Repr

-- What each byte of a UTF-8 form may be.
abbrev ByteForm := List ByteRange

def longestForm : Nat := 4

def continuation (bits : Nat) : Nat := 0x80 + bits % 64

def utf8Bytes (code : Nat) : List Nat :=
  if code ≤ 0x7F then [code]
  else if code ≤ 0x7FF then [0xC0 + code / 64, continuation code]
  else if code ≤ 0xFFFF then
    [0xE0 + code / 4096, continuation (code / 64), continuation code]
  else
    [0xF0 + code / 262144, continuation (code / 4096), continuation (code / 64),
      continuation code]

-- The code points of characters, divided by the number of their bytes and by
-- the surrogates.
def utf8Segments : List Range :=
  [⟨0, 0x7F⟩, ⟨0x80, 0x7FF⟩, ⟨0x800, lastBeforeSurrogates⟩, ⟨firstAfterSurrogates, 0xFFFF⟩,
    ⟨0x10000, lastCode⟩]

-- How many code points have the same bytes but for the last one, the last two
-- or the last three.
def utf8Blocks : List Nat := [64, 4096, 262144]

-- Divides a range so that in each part every byte of a form varies on its own:
-- where a part goes through several blocks, they are whole.
def wholeBlocks : (blocks : List Nat) → Range → List Range
  | [], range => [range]
  | block :: larger, range =>
      if range.first / block = range.last / block then wholeBlocks larger range
      else
        let firstWhole := (range.first + block - 1) / block * block
        let afterWhole := (range.last + 1) / block * block
        let before := if range.first < firstWhole then [⟨range.first, firstWhole - 1⟩] else []
        let inside :=
          if firstWhole < afterWhole then wholeBlocks larger ⟨firstWhole, afterWhole - 1⟩ else []
        let after := if afterWhole ≤ range.last then [⟨afterWhole, range.last⟩] else []
        before ++ inside ++ after

def byteForm (range : Range) : ByteForm :=
  (utf8Bytes range.first).zipWith (fun first last => ⟨first, last⟩) (utf8Bytes range.last)

-- The UTF-8 forms of the characters in a range, in ascending order.
def byteForms (range : Range) : List ByteForm :=
  (utf8Segments.filterMap range.common?).flatMap fun part =>
    (if part.last ≤ 0x7F then [part] else wholeBlocks utf8Blocks part).map byteForm

end PhraseGrammar.Character
