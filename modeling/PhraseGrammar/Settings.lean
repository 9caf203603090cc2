import PhraseGrammar.Json.Reading

namespace PhraseGrammar

structure Settings where
  startSymbol : String
  equalize : Bool
  seed : Option UInt64
  deriving DecidableEq, Repr

-- The name that grammars are bound to if no other is given.
def defaultStart : String := "main"

def Settings.default : Settings := ⟨defaultStart, false, none⟩

namespace Settings

open Json

-- The fields that have been read. A seed may be given as none.
structure Fields where
  startSymbol : Option String
  equalize : Option Bool
  seed : Option (Option UInt64)

def Fields.empty : Fields := ⟨none, none, none⟩

def Fields.settings (fields : Fields) : Settings where
  startSymbol := fields.startSymbol.getD Settings.default.startSymbol
  equalize := fields.equalize.getD Settings.default.equalize
  seed := fields.seed.getD Settings.default.seed

def readSeed : Scanner (Option UInt64) := do
  return (← readOptional (readNatural UInt64.size)).map UInt64.ofNat

-- Reads the value of a field, which may come once. Fields with other names
-- have any value.
def readField (fields : Fields) (name : String) : Scanner Fields := do
  match name with
  | "start_symbol" =>
      if fields.startSymbol.isSome then malformed
      return { fields with startSymbol := some (← readString) }
  | "equalize" =>
      if fields.equalize.isSome then malformed
      return { fields with equalize := some (← readBool) }
  | "seed" =>
      if fields.seed.isSome then malformed
      return { fields with seed := some (← readSeed) }
  | _ =>
      skipValue (← get).length
      return fields

def readFields : (steps : Nat) → Fields → Scanner Fields
  | 0, _ => malformed
  | steps + 1, fields => do
      let name ← readString
      expect ':'
      let fields ← readField fields name
      match ← peek with
      | some ',' =>
          drop 1
          readFields steps fields
      | some '}' =>
          drop 1
          return fields
      | _ => malformed

def readObject : Scanner Settings := do
  drop 1
  if (← peek) == some '}' then
    drop 1
    return Settings.default
  return (← readFields (← get).length Fields.empty).settings

-- Moves on to the next value in brackets, and past the closing bracket if
-- there is none.
def nextElement : Scanner Bool := do
  match ← peek with
  | some ',' =>
      drop 1
      return true
  | some ']' =>
      drop 1
      return false
  | _ => malformed

-- Reads the values of the fields in their order, in brackets. Values at the
-- end may be missing.
def readArray : Scanner Settings := do
  drop 1
  let fields := Fields.empty
  if (← peek) == some ']' then
    drop 1
    return fields.settings
  let fields := { fields with startSymbol := some (← readString) }
  if !(← nextElement) then return fields.settings
  let fields := { fields with equalize := some (← readBool) }
  if !(← nextElement) then return fields.settings
  let fields := { fields with seed := some (← readSeed) }
  if ← nextElement then malformed
  return fields.settings

def readSettings : Scanner Settings := do
  let settings ←
    match ← peek with
    | some '{' => readObject
    | some '[' => readArray
    | _ => malformed
  if (← peek).isSome then malformed
  return settings

def ofJson? (text : String) : Option Settings :=
  (readSettings.run text.toList).map Prod.fst

end Settings

end PhraseGrammar
