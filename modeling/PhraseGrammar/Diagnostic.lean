namespace PhraseGrammar

inductive Cause where
  | nameExpected
  | digitExpected
  | numberExpected (numeral : String)
  | equalsExpected
  | operatorExpected
  | textExpected
  | openComment
  | openQuote (quote : Char)
  | openBrace
  | closingExpected (terminator : Char)
  | lineEndExpected
  | unexpectedEnd
  | braceSeparator
  | wideSeparator
  | controlSeparator
  | patternExpected
  | refusedSubstitution (reason : String)
  | assignedTwice (name : String)
  deriving DecidableEq, Repr

inductive Diagnostic where
  | unreadable (line column : Nat) (cause : Cause)
  | missingStart (name : String)
  | recursiveExpansion (name : String)
  | missingLocal (name : String)
  | duplicate (name : String)
  deriving DecidableEq, Repr

def duplicateMessage (name : String) : String :=
  "The nonterminal \"" ++ name ++ "\" is already defined."

def substitutionMessage (reason : String) : String :=
  "Substitution error: " ++ reason

def Cause.message : Cause → String
  | nameExpected => "A nonterminal \"[A-Za-z0-9_.]+\" is expected."
  | digitExpected => "A number is expected. (\".\" is not a number.)"
  | numberExpected numeral => "The weight \"" ++ numeral ++ "\" is not a number."
  | equalsExpected => "\"=\" is expected."
  | operatorExpected => "\"=\" or \":=\" is expected."
  | textExpected => "A text is expected."
  | openComment => "The end of the comment is expected."
  | openQuote quote =>
      "The end of the " ++ quote.toString ++ "quoted text" ++ quote.toString ++ " is expected."
  | openBrace => "The end of the brace expansion is expected."
  | closingExpected terminator => "\"" ++ terminator.toString ++ "\" is expected."
  | lineEndExpected => "The end of the text or \"\\n\" is expected."
  | unexpectedEnd => "Unexpected EOT."
  | braceSeparator => "\"\x7b\" isn't allowable as a separator."
  | wideSeparator => "The separator must be a 7 bit character."
  | controlSeparator => "The separator must be a printable character."
  | patternExpected => "A nonempty pattern is expected."
  | refusedSubstitution reason => substitutionMessage reason
  | assignedTwice name => duplicateMessage name

def Diagnostic.message : Diagnostic → String
  | unreadable line column cause =>
      "line " ++ toString line ++ ", column " ++ toString column ++ ": " ++ cause.message
  | missingStart name => "The nonterminal \"" ++ name ++ "\" doesn't exist."
  | recursiveExpansion name => "Recursive expansion of \"" ++ name ++ "\" is detected."
  | missingLocal name => "The local nonterminal \"" ++ name ++ "\" is not found."
  | duplicate name => duplicateMessage name

-- The texts of collected diagnostics, one to a line.
def joinedMessages (diagnostics : List Diagnostic) : String :=
  "\n".intercalate (diagnostics.map Diagnostic.message)

-- The text of a refusal that rests on collected diagnostics.
def invalidGrammarMessage (diagnostics : List Diagnostic) : String :=
  "Invalid grammar: " ++ joinedMessages diagnostics

end PhraseGrammar
