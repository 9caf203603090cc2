import PhraseGrammar.Regex.Automaton.Draft

namespace PhraseGrammar.Regex

abbrev Word := List Nat

def splitAtEmpty : List Word → List (List Word)
  | [] => [[]]
  | [] :: rest => [] :: splitAtEmpty rest
  | word :: rest =>
      match splitAtEmpty rest with
      | first :: more => (word :: first) :: more
      | [] => [[word]]

-- Where words end, those before and those after are kept apart. Of the empty
-- words at the start one counts.
def wordSections : List Word → List (List Word)
  | [] :: rest => splitAtEmpty ([] :: rest.dropWhile List.isEmpty)
  | words => splitAtEmpty words

def firstBytes (words : List Word) : List Nat := (words.filterMap List.head?).eraseDups

def wordsAfter (byte : Nat) (words : List Word) : List Word :=
  (words.filter (·.head? == some byte)).map List.tail

-- Builds the tree of the words: a fork for each place where words go on, with a
-- state for each section. Words are not longer than `length`.
def addWords : (length : Nat) → List Word → Draft → Draft
  | 0, _, draft => draft
  | length + 1, words, draft =>
      let sections := wordSections words
      let draft := sections.foldl
        (fun draft words =>
          let bytes := firstBytes words
          let draft := bytes.foldl
            (fun draft byte =>
              let longer := wordsAfter byte words
              if longer.all List.isEmpty then draft else addWords length longer draft)
            draft
          match bytes with
          | [] => draft
          | [_] => draft.addState.addBranches 1
          | _ => (draft.addTable bytes.length).addBranches 1)
        draft
      draft.addState.addBranches (sections.length - 1)

end PhraseGrammar.Regex
