import PhraseGrammar.Reading.Grammar

-- Grammars as they are written down: what each assignment says, and the layout
-- that it is written with.
namespace PhraseGrammar.Written

open Reading

-- A space, a tab, or a closed comment. A newline counts where the flag says so.
inductive Blank : Bool → Type
  | space (newlines : Bool) : Blank newlines
  | tab (newlines : Bool) : Blank newlines
  | comment (newlines : Bool) (body : List Char) (hbody : '}' ∉ body) : Blank newlines
  | newline : Blank true

def Blank.text {newlines : Bool} : Blank newlines → List Char
  | .space _ => [' ']
  | .tab _ => ['\t']
  | .comment _ body _ => '{' :: '*' :: (body ++ ['}'])
  | .newline => ['\n']

def gapText {newlines : Bool} (gap : List (Blank newlines)) : List Char :=
  gap.flatMap Blank.text

-- Blanks with a newline among them, if there is a second gap.
structure Continuation where
  before : List (Blank false)
  after : Option (List (Blank false))

def lineText {newlines : Bool} : Option (List (Blank newlines)) → List Char
  | none => []
  | some gap => '\n' :: gapText gap

def Continuation.text (lead : Continuation) : List Char :=
  gapText lead.before ++ lineText lead.after

structure Name where
  characters : List Char
  hne : characters ≠ []
  hcharacters : ∀ character ∈ characters, isNameCharacter character
  hlocal : characters.head? ≠ some '_'

def Name.name (name : Name) : String := String.ofList name.characters

-- Digits, with a point among them if there is a fraction. Digits may be missing
-- before the point or after it.
structure Numeral where
  whole : List Char
  fraction : Option (List Char)
  hwhole : ∀ character ∈ whole, character.isDigit
  hfraction : ∀ character ∈ fraction.getD [], character.isDigit
  hne : whole ++ fraction.getD [] ≠ []

def Numeral.text (numeral : Numeral) : List Char :=
  numeral.whole ++
    match numeral.fraction with
    | none => []
    | some digits => '.' :: digits

def Numeral.value {ω : Type} [Weight ω] (numeral : Numeral) : ω :=
  Weight.ofDecimal (Decimal.digitsValue (numeral.whole ++ numeral.fraction.getD []))
    (numeral.fraction.getD []).length

def weightText {newlines : Bool} : Option (Numeral × List (Blank newlines)) → List Char
  | none => []
  | some (numeral, gap) => numeral.text ++ gapText gap

def weightValue {ω : Type} [Weight ω] {newlines : Bool}
    (weight : Option (Numeral × List (Blank newlines))) : Option ω :=
  weight.map fun (numeral, _) => numeral.value

def sign (equalized : Bool) : List Char :=
  if equalized then [':', '='] else ['=']

-- A directive with the transform that it is compiled to. Its separator can be
-- seen, is not an opening brace, and occurs in neither of its texts.
structure Directive (compile : Compiler) where
  lead : Continuation
  separator : Char
  pattern : List Char
  replacement : List Char
  global : Bool
  gap : List (Blank false)
  transform : Transform
  hseparator : 32 < separator.toNat ∧ separator.toNat < 127 ∧ separator ≠ '{'
  hpattern : pattern ≠ [] ∧ separator ∉ pattern
  hreplacement : separator ∉ replacement
  hcompile : compile (String.ofList pattern) (String.ofList replacement) global = .ok transform

namespace Directive

variable {compile : Compiler}

def text (directive : Directive compile) : List Char :=
  '~' :: (directive.lead.text ++ directive.separator :: (directive.pattern ++
    directive.separator :: (directive.replacement ++ directive.separator ::
      ((if directive.global then ['g'] else []) ++ gapText directive.gap))))

end Directive

def directivesText {compile : Compiler} (directives : List (Directive compile)) : List Char :=
  directives.flatMap Directive.text

-- A literal stands for itself, apart from two characters that are put in
-- braces.
structure Literal where
  characters : List Char
  hne : characters ≠ []

def escaped (character : Char) : List Char :=
  if character = '{' then ['{', '(', '}']
  else if character = '\"' then ['{', '\"', '}']
  else [character]

def Literal.text (literal : Literal) : List Char := literal.characters.flatMap escaped

variable (compile : Compiler)

mutual

-- What stands between quotes. No literal follows another one; the flag tells
-- whether one may come first.
inductive Pieces : Bool → Type
  | nil (free : Bool) : Pieces free
  | literal (literal : Literal) (rest : Pieces false) : Pieces true
  | reference (free : Bool) (name : Name) (rest : Pieces true) : Pieces free
  | inline (free equalized : Bool) (lead : List (Blank true)) (body : Body)
      (line : Option (List (Blank true))) (rest : Pieces true) : Pieces free

-- A text in quotes, and the weight that may follow it.
inductive Quotation : Type
  | mk (pieces : Pieces true) (gap : List (Blank false))
      (weight : Option (Numeral × List (Blank false)))

-- One quotation or more, with bars between them.
inductive Quotations : Type
  | last (quotation : Quotation)
  | more (quotation : Quotation) (lead : Continuation) (rest : Quotations)

-- Quotations and the directives for the text that is made from them. Blanks
-- at the end of a line belong to what they follow.
inductive Body : Type
  | mk (quotations : Quotations) (directives : List (Directive compile))

end

variable {compile}

mutual

def Pieces.text {free : Bool} : Pieces compile free → List Char
  | .nil _ => []
  | .literal literal rest => literal.text ++ rest.text
  | .reference _ name rest => '{' :: (name.characters ++ '}' :: rest.text)
  | .inline _ equalized lead body line rest =>
      '{' :: (sign equalized ++
        (gapText lead ++ (body.text ++ (lineText line ++ '}' :: rest.text))))

def Quotation.text : Quotation compile → List Char
  | .mk pieces gap weight => '\"' :: (pieces.text ++ '\"' :: (gapText gap ++ weightText weight))

def Quotations.text : Quotations compile → List Char
  | .last quotation => quotation.text
  | .more quotation lead rest => quotation.text ++ '|' :: (lead.text ++ rest.text)

def Body.text : Body compile → List Char
  | .mk quotations directives => quotations.text ++ directivesText directives

end

variable {ω : Type} [Weight ω]

mutual

def Pieces.parts {free : Bool} : Pieces compile free → List (Part ω)
  | .nil _ => []
  | .literal literal rest => .literal (String.ofList literal.characters) :: rest.parts
  | .reference _ name rest => .reference name.name none :: rest.parts
  | .inline _ equalized _ body _ rest => .inline (body.rule equalized none) :: rest.parts

def Quotation.choice : Quotation compile → Choice ω
  | .mk pieces _ weight => ⟨pieces.parts, 1, weightValue weight, 1⟩

def Quotations.choices : Quotations compile → List (Choice ω)
  | .last quotation => [quotation.choice]
  | .more quotation _ rest => quotation.choice :: rest.choices

def Body.rule : Body compile → (equalized : Bool) → Option ω → Rule ω
  | .mk quotations directives, equalized, weight =>
      Rule.ofChoices quotations.choices equalized (directives.map Directive.transform) weight

end

-- An assignment on lines of its own. Some blank stands between the name and a
-- weight.
structure Entry (compile : Compiler) where
  lead : List (Blank true)
  name : Name
  gap : List (Blank false)
  weight : Option (Numeral × List (Blank false))
  equalized : Bool
  continuation : Continuation
  body : Body compile
  hgap : weight.isSome → gap ≠ []

namespace Entry

def text (entry : Entry compile) : List Char :=
  gapText entry.lead ++ (entry.name.characters ++ (gapText entry.gap ++ (weightText entry.weight ++
    (sign entry.equalized ++ (entry.continuation.text ++ (entry.body.text ++ ['\n']))))))

def assignment (entry : Entry compile) : Assignment ω :=
  ⟨entry.name.name, entry.body.rule entry.equalized (weightValue entry.weight)⟩

end Entry

end PhraseGrammar.Written
