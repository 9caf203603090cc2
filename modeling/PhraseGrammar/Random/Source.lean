import PhraseGrammar.Weight

namespace PhraseGrammar

-- A source of numbers for the choices to be made: a stream and how many of
-- its numbers have been drawn.
structure Source (ω : Type) where
  stream : Nat → ω
  drawn : Nat

namespace Source

variable {ω : Type}

def ofStream (stream : Nat → ω) : Source ω := ⟨stream, 0⟩

-- The given numbers in order, then the last of them for ever. Without any
-- number it yields zero.
def ofList [Weight ω] (values : List ω) : Source ω :=
  ofStream fun index => (values[index]? <|> values.getLast?).getD 0

def draw (source : Source ω) : ω × Source ω :=
  (source.stream source.drawn, { source with drawn := source.drawn + 1 })

end Source

end PhraseGrammar
