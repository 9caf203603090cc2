import PhraseGrammar.Main
import PhraseGrammar.Proofs.Binding.Recursion
import PhraseGrammar.Proofs.Generation.Safety
import PhraseGrammar.Proofs.Inlining.Refinement
import PhraseGrammar.Proofs.Reading.RoundTrip
import PhraseGrammar.Proofs.Binding.Agreement
import PhraseGrammar.Proofs.Generation.Content
import PhraseGrammar.Proofs.Binding.Content
import PhraseGrammar.Proofs.Generation.Dependence
import PhraseGrammar.Proofs.Derivation.Basic
import PhraseGrammar.Proofs.Derivation.Enumeration
import PhraseGrammar.Proofs.Binding.Aggregates
import PhraseGrammar.Proofs.Rule.Nested
import PhraseGrammar.Proofs.Derivation.Below
import PhraseGrammar.Proofs.Derivation.Count
import PhraseGrammar.Proofs.Selection.Proportions
import PhraseGrammar.Proofs.Derivation.NonNegative
import PhraseGrammar.Proofs.Derivation.Uniform
import PhraseGrammar.Proofs.Derivation.Following
import PhraseGrammar.Proofs.Derivation.Phrases
import PhraseGrammar.Proofs.Derivation.Picks
import PhraseGrammar.Proofs.Ensemble.Survivors
import PhraseGrammar.Proofs.Grammar.Links
import PhraseGrammar.Proofs.Reading.Independence
import PhraseGrammar.Proofs.Generation.Contexts
import PhraseGrammar.Proofs.Reading.WellFormed
import PhraseGrammar.Proofs.Document.Merge
import PhraseGrammar.Proofs.Ensemble.Identities
import PhraseGrammar.Proofs.Generation.Equalized
import PhraseGrammar.Proofs.Generator.Additions
import PhraseGrammar.Proofs.Inlining.Reports
import PhraseGrammar.Proofs.Reading.BareTexts
import PhraseGrammar.Proofs.Reading.Recovery
import PhraseGrammar.Proofs.Reading.Groups
import PhraseGrammar.Proofs.Binding.Frame
import PhraseGrammar.Proofs.Grammar.Refusals
import PhraseGrammar.Proofs.Reading.Lookahead
import PhraseGrammar.Proofs.Reading.Causes
