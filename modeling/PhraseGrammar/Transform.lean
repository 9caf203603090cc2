namespace PhraseGrammar

-- A step of post-processing. A transform either returns a text or fails with
-- a message, which ends the generation it is part of.
structure Transform where
  name : String
  apply (text : String) : Except String String

-- Builds the transform of one directive from its pattern, its replacement and
-- its global flag, or says why there is none.
abbrev Compiler := (pattern replacement : String) → (global : Bool) → Except String Transform

-- Each transform works on the text that the one before it returned.
def applyAll (transforms : List Transform) (text : String) : Except String String :=
  transforms.foldlM (fun text transform => transform.apply text) text

end PhraseGrammar
