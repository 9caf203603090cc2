import PhraseGrammar.Document
import PhraseGrammar.Proofs.Grammar.Merge
import PhraseGrammar.Proofs.Reading.WellFormed

namespace PhraseGrammar.Document

variable {ω : Type} [Weight ω]

-- The documents that can be made. One that has been cleared is empty.
inductive Reachable : Document ω → Prop
  | empty : Reachable empty
  | read (compile : Compiler) (text : String) : Reachable (read compile text)
  | addText (document : Document ω) (compile : Compiler) (text : String)
      (h : Reachable document) : Reachable (document.addText compile text).2
  | merge (document other : Document ω) (h : Reachable document) (hother : Reachable other) :
      Reachable (document.merge other).2
  | clearDiagnostics (document : Document ω) (h : Reachable document) :
      Reachable document.clearDiagnostics

theorem wellFormed_read (compile : Compiler) (text : String) :
    (read compile text : Document ω).grammar.WellFormed IsName :=
  Grammar.WellFormed.mono (fun _ hname => hname.1) _
    (Reading.wellFormed_readGrammar (ω := ω) compile text).1

-- A document has a grammar as it is read, whatever has been reported.
theorem Reachable.wellFormed (document : Document ω) (h : document.Reachable) :
    document.grammar.WellFormed IsName := by
  induction h with
  | empty => exact ⟨List.nodup_nil, nofun, nofun, rfl, rfl⟩
  | read compile text => exact wellFormed_read compile text
  | addText document compile text _ ih => exact ih.merge _ _ (wellFormed_read compile text)
  | merge document other _ _ ih iho => exact ih.merge _ _ iho
  | clearDiagnostics document _ ih => exact ih

-- What comes of merging a document into another one: the places of all names
-- and their rules, and what is reported.
structure Merges (document other : Document ω) (clean : Bool) (merged : Document ω) : Prop where
  names : merged.grammar.names = document.grammar.names ++
    other.grammar.names.filter (· ∉ document.grammar.names)
  indexOf? (name : String) (index : Nat) :
    merged.grammar.indexOf? name = some index ↔ merged.grammar.nameAt? index = some name
  kept (name : String) (index : Nat) (hindex : document.grammar.indexOf? name = some index) :
    merged.grammar.indexOf? name = some index
  rule? (name : String) :
    merged.grammar.rule? name = (other.grammar.rule? name).or (document.grammar.rule? name)
  diagnostics : merged.diagnostics = document.diagnostics ++ (other.diagnostics ++
    (other.grammar.names.filter (· ∈ document.grammar.names)).map .duplicate)
  clean_iff : clean = false ↔ document.diagnostics.length < merged.diagnostics.length

theorem Reachable.merges (document other : Document ω) (h : document.Reachable)
    (ho : other.Reachable) :
    document.Merges other (document.merge other).1 (document.merge other).2 := by
  have hformed := h.wellFormed
  have hother := ho.wellFormed
  have hmerged := hformed.merge _ _ hother
  refine ⟨Grammar.names_merge _ _ hother.nodup, fun name index => ⟨?_, ?_⟩, ?_, ?_, ?_, ?_⟩
  · exact Grammar.nameAt?_of_indexOf? _ name index
  · exact Grammar.indexOf?_of_nameAt? _ hmerged.nodup name index
  · exact Grammar.indexOf?_merge _ _ hother.nodup
  · exact hother.rule?_merge _ _
  · rw [← Grammar.reports_merge _ _ hother.nodup]
    rfl
  · have hadded : (document.merge other).2.diagnostics.length =
        document.diagnostics.length +
          (other.diagnostics ++ (document.grammar.merge other.grammar).2).length :=
      List.length_append
    have hclean : (document.merge other).1 = false ↔
        0 < (other.diagnostics ++ (document.grammar.merge other.grammar).2).length := by
      rw [List.length_pos_iff, ← List.isEmpty_eq_false_iff]
      rfl
    rw [hclean, hadded]
    omega

section Laws

variable (first second third : Document ω) (h : first.Reachable) (hs : second.Reachable)
  (ht : third.Reachable)

include h in
theorem Reachable.empty_merge_eq : (Document.empty.merge first).2 = first := by
  obtain ⟨hgrammar, hreports⟩ := h.wellFormed.empty_merge
  simp only [Document.merge, Document.empty, hgrammar, hreports, List.append_nil, List.nil_append]

include h in
theorem Reachable.merge_empty_eq : (first.merge Document.empty).2 = first := by
  obtain ⟨hgrammar, hreports⟩ := first.grammar.merge_empty h.wellFormed.start
  simp only [Document.merge, Document.empty, hgrammar, hreports, List.append_nil]

include hs ht in
theorem Reachable.diagnostics_merge_assoc :
    ((first.merge second).2.merge third).2.diagnostics.Perm
      (first.merge (second.merge third).2).2.diagnostics := by
  have hreports := hs.wellFormed.reports_merge_assoc first.grammar _ _ ht.wellFormed
  simp only [Document.merge, List.append_assoc]
  refine (List.Perm.append_left _ ?_).append_left _
  exact (List.perm_append_comm_assoc _ _ _).trans (hreports.append_left _)

include h hs ht in
-- Merging documents is associative up to the order of what is reported, and
-- the empty document is neutral. In each merge the other document wins for the
-- names in both, at their old places, and each of them is reported once.
theorem merge_laws :
    (((first.merge second).2.merge third).2.grammar =
        (first.merge (second.merge third).2).2.grammar ∧
      ((first.merge second).2.merge third).2.diagnostics.Perm
        (first.merge (second.merge third).2).2.diagnostics) ∧
    ((empty.merge first).2 = first ∧ (first.merge empty).2 = first) ∧
    first.Merges second (first.merge second).1 (first.merge second).2 := by
  refine ⟨⟨?_, ?_⟩, ⟨?_, ?_⟩, ?_⟩
  · exact h.wellFormed.merge_assoc _ _ _ hs.wellFormed ht.wellFormed
  · exact hs.diagnostics_merge_assoc first second third ht
  · exact h.empty_merge_eq
  · exact h.merge_empty_eq
  · exact h.merges _ _ hs

end Laws

-- Three texts that share names in all ways. The duplicates of the two orders of
-- merging are the same ones, in another order.
theorem merge_overlapping_laws :
    let read (text : String) : Document Rat := read Reading.refused text
    let first := read "x=a\ny=b"
    let second := read "y=c\nz=d\n?"
    let third := read "z=e\ny=f\nx=g"
    (((first.merge second).2.merge third).2.grammar =
        (first.merge (second.merge third).2).2.grammar ∧
      ((first.merge second).2.merge third).2.grammar.names = ["x", "y", "z"] ∧
      ((first.merge second).2.merge third).2.diagnostics =
        [.unreadable 3 1 .nameExpected, .duplicate "y", .duplicate "z", .duplicate "y",
          .duplicate "x"] ∧
      (first.merge (second.merge third).2).2.diagnostics =
        [.unreadable 3 1 .nameExpected, .duplicate "z", .duplicate "y", .duplicate "y",
          .duplicate "x"]) ∧
    ((empty.merge first).2 = first ∧ (first.merge empty).2 = first) ∧
    first.Merges second false (first.merge second).2 := by
  intro read first second third
  obtain ⟨hassoc, hempty, hmerges⟩ :=
    merge_laws first second third (.read _ _) (.read _ _) (.read _ _)
  have hclean : (first.merge second).1 = false := by decide +kernel
  rw [hclean] at hmerges
  exact ⟨⟨hassoc.1, by decide +kernel, by decide +kernel, by decide +kernel⟩, hempty, hmerges⟩

end PhraseGrammar.Document
