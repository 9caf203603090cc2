import PhraseGrammar.Random.Source

namespace PhraseGrammar.Keystream

-- The words of a cipher block: four constants, the key, a counter of blocks
-- and the number of the stream.
abbrev Block := Vector UInt32 16

def rotate (word count : UInt32) : UInt32 :=
  (word <<< count) ||| (word >>> (32 - count))

def quarterRound (a b c d : Fin 16) (block : Block) : Block :=
  let block := block.set a (block[a] + block[b])
  let block := block.set d (rotate (block[d] ^^^ block[a]) 16)
  let block := block.set c (block[c] + block[d])
  let block := block.set b (rotate (block[b] ^^^ block[c]) 12)
  let block := block.set a (block[a] + block[b])
  let block := block.set d (rotate (block[d] ^^^ block[a]) 8)
  let block := block.set c (block[c] + block[d])
  block.set b (rotate (block[b] ^^^ block[c]) 7)

-- One round on the columns and one on the diagonals.
def doubleRound (block : Block) : Block :=
  let block := quarterRound 0 4 8 12 block
  let block := quarterRound 1 5 9 13 block
  let block := quarterRound 2 6 10 14 block
  let block := quarterRound 3 7 11 15 block
  let block := quarterRound 0 5 10 15 block
  let block := quarterRound 1 6 11 12 block
  let block := quarterRound 2 7 8 13 block
  quarterRound 3 4 9 14 block

def rounds : Nat → Block → Block
  | 0, block => block
  | count + 1, block => rounds count (doubleRound block)

def doubleRounds : Nat := 6

abbrev Key := Vector UInt32 8

-- The state that the block with a number is made from. The constants spell
-- "expand 32-byte k".
def initialBlock (key : Key) (number : UInt64) : Block :=
  #v[0x61707865, 0x3320646e, 0x79622d32, 0x6b206574,
    key[0], key[1], key[2], key[3], key[4], key[5], key[6], key[7],
    number.toUInt32, (number >>> 32).toUInt32, 0, 0]

def cipherBlock (key : Key) (number : UInt64) : Block :=
  let block := initialBlock key number
  Vector.zipWith (· + ·) block (rounds doubleRounds block)

-- A step of the generator that keys are made with.
def keyStep (state : UInt64) : UInt64 :=
  state * 6364136223846793005 + 11634580027462260723

def keyWord (state : UInt64) : UInt32 :=
  let mixed : UInt64 := ((state >>> 18) ^^^ state) >>> 27
  let turn : UInt64 := state >>> 59
  rotate mixed.toUInt32 (32 - turn.toUInt32)

def keyStates (seed : UInt64) : Nat → UInt64
  | 0 => keyStep seed
  | index + 1 => keyStep (keyStates seed index)

def seededKey (seed : UInt64) : Key :=
  Vector.ofFn fun index => keyWord (keyStates seed index)

-- Two words of the stream make a value, the low one first.
def value (key : Key) (index : Nat) : UInt64 :=
  let block := cipherBlock key (UInt64.ofNat (index / 8))
  let low := block[2 * (index % 8)]
  let high := block[2 * (index % 8) + 1]
  low.toUInt64 ||| (high.toUInt64 <<< 32)

-- The upper 52 bits of a value as a fraction of one.
def fraction (value : UInt64) : Float :=
  (value >>> 12).toFloat / 4503599627370496.0

end Keystream

def Source.seeded (seed : UInt64) : Source Float :=
  let key := Keystream.seededKey seed
  Source.ofStream fun index => Keystream.fraction (Keystream.value key index)

end PhraseGrammar
