import ExprTree.Ty
import ExprTree.Operator
import ExprTree.Reference
import ExprTree.Binary64.Shortest
import ExprTree.Tree.Basic
import ExprTree.Tree.Children
import ExprTree.Failure
import ExprTree.Walk.Basic
import ExprTree.Expansion.Scope
import ExprTree.Expansion.Capture
import ExprTree.Expansion.Inline
import ExprTree.Fingerprint.Blake3
import ExprTree.Fingerprint.Digest
import ExprTree.Fingerprint.Encoding
import ExprTree.Tree.Equality
import ExprTree.Tree.Describe
import ExprTree.Surface.Diagnostic
import ExprTree.Surface.Token
import ExprTree.Surface.Lexer
import ExprTree.Surface.Parser.File
import ExprTree.Surface.Naming
import ExprTree.Surface.Layout
import ExprTree.Surface.Printer
import ExprTree.Surface.ReadBack
import ExprTree.Walk.Standard
import ExprTree.Query
import ExprTree.Text.Blank
import ExprTree.Options
import ExprTree.Command.Arguments
import ExprTree.Command.Path
import ExprTree.Command.Report
import ExprTree.Command.Run
import ExprTree.Command.Disk
import ExprTree.Main
import ExprTree.Proofs.Identity
import ExprTree.Proofs.Yields
import ExprTree.Proofs.Traversal
import ExprTree.Proofs.Watch
import ExprTree.Proofs.Scopes
import ExprTree.Proofs.Derivation
import ExprTree.Proofs.Vocabulary
import ExprTree.Proofs.Idempotence
import ExprTree.Proofs.Variables
import ExprTree.Proofs.ReaderParts
import ExprTree.Proofs.Reading
import ExprTree.Proofs.Escape
import ExprTree.Proofs.Renaming
import ExprTree.Proofs.Freshening
import ExprTree.Proofs.Hygiene
import ExprTree.Proofs.Recasting
import ExprTree.Proofs.AlphaInvariance
import ExprTree.Proofs.Delimiting
import ExprTree.Proofs.Agreement
import ExprTree.Proofs.Spelling
import ExprTree.Proofs.PrintedText
import ExprTree.Proofs.Taking
import ExprTree.Proofs.Legible
import ExprTree.Proofs.Reports
import ExprTree.Proofs.Acceptance
import ExprTree.Proofs.ClosureOrder
import ExprTree.Proofs.PrintedNames
import ExprTree.Proofs.PrintedTree
import ExprTree.Proofs.RereadingParts
import ExprTree.Proofs.Rereading
import ExprTree.Proofs.Declarations
import ExprTree.Proofs.RereadingSource
import ExprTree.Proofs.RecastParts
import ExprTree.Proofs.Reprinting
import ExprTree.Proofs.NearestNumber
import ExprTree.Proofs.ShortestDigits
import ExprTree.Proofs.FloatText
import ExprTree.Proofs.RoundTrip
import ExprTree.Proofs.Lockstep
import ExprTree.Proofs.DepthLimit
import ExprTree.Proofs.Untouched
import ExprTree.Proofs.RecastNodes
import ExprTree.Proofs.RecastExpansion
import ExprTree.Proofs.Outline
import ExprTree.Proofs.Correspondence
import ExprTree.Proofs.EqualBytes
import ExprTree.Proofs.Grammar
import ExprTree.Proofs.Recognition
import ExprTree.Proofs.RecognizedParts
import ExprTree.Proofs.RecognizedForms
import ExprTree.Proofs.RecognizedSources
import ExprTree.Proofs.FirstOrder
import ExprTree.Proofs.Stratified
import ExprTree.Proofs.HygienicSources
import ExprTree.Proofs.Fragments
import ExprTree.Proofs.Copying
import ExprTree.Proofs.Substitution
import ExprTree.Proofs.Sessions
import ExprTree.Proofs.Residues
import ExprTree.Proofs.Sequencing
import ExprTree.Proofs.GuardedRuns
import ExprTree.Proofs.Rebuilding
import ExprTree.Proofs.CopyOnWrite
import ExprTree.Proofs.VisitOrder
import ExprTree.Proofs.NestingLimit
import ExprTree.Proofs.PhraseParts
import ExprTree.Proofs.WellScoped
import ExprTree.Proofs.ReaderText
import ExprTree.Proofs.ReadingEnds
import ExprTree.Proofs.DeclarationOrder
import ExprTree.Proofs.UnambiguousNames
import ExprTree.Proofs.EqualTrees
import ExprTree.Proofs.Tiling
import ExprTree.Proofs.ReportedSpans
import ExprTree.Proofs.SourceSpans
import ExprTree.Proofs.SingleTokens
import ExprTree.Proofs.TypesReadBack
import ExprTree.Proofs.LineBreaks
