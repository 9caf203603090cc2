import PhraseGrammar.Rule.Basic

namespace PhraseGrammar.Reading

-- A choice that is being read. The characters that make up its next literal
-- are held back until another part or the end follows.
structure Draft (ω : Type) where
  choice : Choice ω
  literal : String

namespace Draft

variable {ω : Type} [Weight ω]

def empty : Draft ω := ⟨Choice.empty, ""⟩

omit [Weight ω] in
def add (draft : Draft ω) (text : List Char) : Draft ω :=
  { draft with literal := draft.literal ++ String.ofList text }

omit [Weight ω] in
def finish (draft : Draft ω) : Choice ω :=
  draft.choice.pushLiteral draft.literal

omit [Weight ω] in
def push (draft : Draft ω) (part : Part ω) : Draft ω :=
  ⟨draft.finish.push part, ""⟩

section Fields

omit [Weight ω]

variable (draft : Draft ω) (text : List Char) (part : Part ω)

@[simp] theorem choice_add : (draft.add text).choice = draft.choice := rfl

@[simp] theorem literal_add :
    (draft.add text).literal = draft.literal ++ String.ofList text := rfl

@[simp] theorem choice_push : (draft.push part).choice = draft.finish.push part := rfl

@[simp] theorem literal_push : (draft.push part).literal = "" := rfl

end Fields

end Draft

end PhraseGrammar.Reading
