import PhraseGrammar.Grammar.Basic
import PhraseGrammar.Reading.Choice
import PhraseGrammar.Reading.Directive

namespace PhraseGrammar.Reading

variable {ω : Type} [Weight ω]

def closeInline : Reader Unit := do
  skipBlanks true
  if (← remaining).head? == some '}' then skip 1 else fail (.closingExpected '}')

-- Reads choices and directives. Inline rules are read one level deeper, after
-- the brace and the sign that they start with, so `depth` need not exceed the
-- number of characters; at the end of the text there is no choice to be read.
def readRule (compile : Compiler) : (depth : Nat) → Reader (Rule ω)
  | 0 => fail .textExpected
  | depth + 1 => do
      let readInline : Reader (Rule ω) := do
        let rule ← readRule compile depth
        closeInline
        return rule
      let choices ← readChoices readInline
      let substitutions ← readDirectives compile
      return Rule.ofChoices choices false substitutions none

-- Reads an assignment up to the end of its line, if anything but blanks is
-- left.
def readAssignment (compile : Compiler) : Reader (Option (Assignment ω)) := do
  skipBlanks true
  if (← remaining).isEmpty then
    return none
  let name ← readName
  skipBlanks false
  let weight ← readWeight
  skipBlanks false
  let equalized ← readOperator
  skipToContinuation
  let rule ← readRule compile (← remaining).length
  match ← remaining with
  | [] | '\n' :: _ =>
      return some ⟨name, { rule with fixedWeight := weight, equalized := equalized }⟩
  | _ => fail .lineEndExpected

-- Reads an assignment into a grammar. A name that is assigned already is a
-- failure at the end of the assignment.
def readInto (compile : Compiler) (grammar : Grammar ω) : Reader (Grammar ω) := do
  match ← readAssignment compile with
  | none => return grammar
  | some ⟨name, rule⟩ =>
      match grammar.insert name rule with
      | (grammar, none) => return grammar
      | (_, some _) => fail (.assignedTwice name)

end PhraseGrammar.Reading
