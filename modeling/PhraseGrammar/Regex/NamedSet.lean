import PhraseGrammar.Character.Set

namespace PhraseGrammar.Regex

open PhraseGrammar.Character

def namedSet? : String → Option CharacterSet
  | "alnum" => some (.ofPairs [(0x30, 0x39), (0x41, 0x5A), (0x61, 0x7A)])
  | "alpha" => some (.ofPairs [(0x41, 0x5A), (0x61, 0x7A)])
  | "ascii" => some (.ofPairs [(0x0, 0x7F)])
  | "blank" => some (.ofPairs [(0x9, 0x9), (0x20, 0x20)])
  | "cntrl" => some (.ofPairs [(0x0, 0x1F), (0x7F, 0x7F)])
  | "digit" => some (.range '0' '9')
  | "graph" => some (.range '!' '~')
  | "lower" => some (.range 'a' 'z')
  | "print" => some (.range ' ' '~')
  | "punct" => some (.ofPairs [(0x21, 0x2F), (0x3A, 0x40), (0x5B, 0x60), (0x7B, 0x7E)])
  | "space" => some (.ofPairs [(0x9, 0xD), (0x20, 0x20)])
  | "upper" => some (.range 'A' 'Z')
  | "word" => some (.ofPairs [(0x30, 0x39), (0x41, 0x5A), (0x5F, 0x5F), (0x61, 0x7A)])
  | "xdigit" => some (.ofPairs [(0x30, 0x39), (0x41, 0x46), (0x61, 0x66)])
  | _ => none

end PhraseGrammar.Regex
