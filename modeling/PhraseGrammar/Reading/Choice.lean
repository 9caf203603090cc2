import PhraseGrammar.Reading.Draft
import PhraseGrammar.Reading.Layout
import PhraseGrammar.Reading.Lexeme

namespace PhraseGrammar.Reading

variable {ω : Type} [Weight ω]

-- What the text between two braces stands for. A name is a reference, an
-- asterisk starts a comment, and any other text stands for itself.
def Draft.addGroup (draft : Draft ω) (body : List Char) : Draft ω :=
  match body with
  | '*' :: _ => draft
  | _ =>
      if !body.isEmpty && body.all isNameCharacter then
        draft.push (.reference (String.ofList body) none)
      else
        draft.add body

section Inline

variable (readInline : Reader (Rule ω))

-- Reads what stands in braces at the cursor: a parenthesis for a brace, a
-- rule after a sign of assignment, or a group.
def readBraces (draft : Draft ω) : Reader (Draft ω) := do
  match (← remaining).drop 1 with
  | '(' :: '}' :: _ =>
      skip 3
      return draft.add ['{']
  | ')' :: '}' :: _ =>
      skip 3
      return draft.add ['}']
  | '=' :: _ =>
      skip 2
      skipBlanks true
      let rule ← readInline
      return draft.push (.inline rule)
  | ':' :: '=' :: _ =>
      skip 3
      skipBlanks true
      let rule ← readInline
      return draft.push (.inline { rule with equalized := true })
  | text =>
      let body := text.takeWhile (· != '}')
      if body.length = text.length then
        skip (body.length + 1)
        fail .openBrace
      skip (body.length + 2)
      return draft.addGroup body

-- Reads up to the closing quote. Each step moves the cursor on, so there are
-- no more steps than characters.
def readQuotedBody (quote : Char) : (steps : Nat) → Draft ω → Reader (Draft ω)
  | 0, draft => return draft
  | steps + 1, draft => do
      match ← remaining with
      | [] => return draft
      | character :: _ =>
          if character = quote then
            return draft
          else if character = '{' then
            readQuotedBody quote steps (← readBraces readInline draft)
          else
            skip 1
            readQuotedBody quote steps (draft.add [character])

def readQuoted (quote : Char) : Reader (Choice ω) := do
  skip 1
  let draft ← readQuotedBody readInline quote (← remaining).length Draft.empty
  if (← remaining).isEmpty then fail (.openQuote quote)
  skip 1
  skipBlanks false
  return { draft.finish with fixedWeight := ← readWeight }

def endsBareText (character : Char) : Bool :=
  character == '\n' || character == '|' || character == '~' || character == '}'

-- Reads a text without quotes. The spaces before its end are dropped, also
-- those that a comment follows. Each step moves the cursor on, so there are
-- no more steps than characters.
def readBareBody : (steps : Nat) → Draft ω → (spaces : List Char) → Reader (Draft ω)
  | 0, draft, _ => return draft
  | steps + 1, draft, spaces => do
      match ← remaining with
      | [] => return draft
      | '{' :: '*' :: _ =>
          skipComment
          readBareBody steps draft spaces
      | '{' :: _ => readBareBody steps (← readBraces readInline (draft.add spaces)) []
      | character :: _ =>
          if endsBareText character then
            return draft
          else if isSpace character then
            skip 1
            readBareBody steps draft (spaces ++ [character])
          else
            skip 1
            readBareBody steps (draft.add (spaces ++ [character])) []

def readBare : Reader (Choice ω) := do
  return (← readBareBody readInline (← remaining).length Draft.empty []).finish

def isQuote (character : Char) : Bool :=
  character == '\"' || character == '\'' || character == '\x60'

def readChoice : Reader (Choice ω) := do
  match ← remaining with
  | [] => fail .textExpected
  | character :: _ =>
      if isSpace character || endsBareText character then
        fail .textExpected
      else if isQuote character then
        readQuoted readInline character
      else
        readBare readInline

def readMoreChoices : (steps : Nat) → List (Choice ω) → Reader (List (Choice ω))
  | 0, choices => return choices
  | steps + 1, choices => do
      match ← remaining with
      | '|' :: _ =>
          skip 1
          skipToContinuation
          let choice ← readChoice readInline
          skipBlanks false
          readMoreChoices steps (choices ++ [choice])
      | _ => return choices

def readChoices : Reader (List (Choice ω)) := do
  let choice ← readChoice readInline
  skipBlanks false
  readMoreChoices readInline (← remaining).length [choice]

end Inline

end PhraseGrammar.Reading
