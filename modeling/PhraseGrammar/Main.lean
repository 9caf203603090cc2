import PhraseGrammar.CommandLine.Response

open PhraseGrammar PhraseGrammar.CommandLine

def readFile (path : String) : IO (Except FileError ByteArray) := do
  try
    return .ok (← IO.FS.readBinFile path)
  catch error =>
    match error with
    | .noFileOrDirectory .. => return .error .missing
    | .inappropriateType .. => return .error .directory
    | error => return .error (.other error.toString)

def entropySource : IO (Source Float) := do
  let bytes ← IO.getRandomBytes 8
  return Source.seeded bytes.toUInt64LE!

def main (arguments : List String) : IO UInt32 := do
  let contents ← (namedFiles arguments).mapM fun path => return (path, ← readFile path)
  let files : Files := fun path => (contents.lookup path).getD (.error .missing)
  let response := respond files (← entropySource) arguments
  IO.print response.output
  match response.error with
  | some message => IO.eprintln message
  | none => if response.exitCode = 2 then IO.eprintln "error: refused arguments"
  return response.exitCode.toUInt32
