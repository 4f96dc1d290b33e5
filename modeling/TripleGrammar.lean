import TripleGrammar.Visit
import TripleGrammar.SortedMap
import TripleGrammar.SortedMap.Lemmas
import TripleGrammar.BitMatrix.Basic
import TripleGrammar.BitMatrix.Lemmas
import TripleGrammar.BitMatrix.Sizes
import TripleGrammar.Embedding.Strategy
import TripleGrammar.Embedding.Backtracking
import TripleGrammar.Node
import TripleGrammar.Edge
import TripleGrammar.Graph.Basic
import TripleGrammar.Graph.Lemmas
import TripleGrammar.Graph.Assembly
import TripleGrammar.Graph.Part
import TripleGrammar.Graph.Dot
import TripleGrammar.Graph.Signature
import TripleGrammar.Match
import TripleGrammar.Matching
import TripleGrammar.Isomorphism
import TripleGrammar.Rule.Basic
import TripleGrammar.Rule.Draft
import TripleGrammar.Policy
import TripleGrammar.Event
import TripleGrammar.Pruning
import TripleGrammar.Derivation
import TripleGrammar.Digest
import TripleGrammar.Json.Basic
import TripleGrammar.Json.Lexeme
import TripleGrammar.Json.Reader
import TripleGrammar.Json.Record
import TripleGrammar.Canonical
import TripleGrammar.Readable
import TripleGrammar.Proofs.Embeddings
import TripleGrammar.Proofs.BacktrackingSearch
import TripleGrammar.Proofs.Placings
import TripleGrammar.Proofs.Edits
import TripleGrammar.Proofs.Parts
import TripleGrammar.Proofs.Assembly
import TripleGrammar.Proofs.Spreading
import TripleGrammar.Proofs.Matches
import TripleGrammar.Proofs.Instances
import TripleGrammar.Proofs.Firing
import TripleGrammar.Proofs.Runs
import TripleGrammar.Proofs.ReachableGraphs
import TripleGrammar.Proofs.HostExtensions
import TripleGrammar.Proofs.Links
import TripleGrammar.Proofs.Termination
import TripleGrammar.Proofs.FirstMatch
import TripleGrammar.Proofs.Renamings
import TripleGrammar.Proofs.Pruning
import TripleGrammar.Proofs.Failures
import TripleGrammar.Proofs.Realizations
import TripleGrammar.Proofs.FixedPoints
import TripleGrammar.Proofs.UnfilteredSearch
import TripleGrammar.Proofs.VisitingOrders
import TripleGrammar.Proofs.Copies
import TripleGrammar.Proofs.CopiedFirings
import TripleGrammar.Proofs.RenamedPrunings
import TripleGrammar.Proofs.CopiedPrunings
import TripleGrammar.Proofs.CopiedRuns
import TripleGrammar.Proofs.DrawnIds
import TripleGrammar.Proofs.Pairings
import TripleGrammar.Proofs.SettledRuns
import TripleGrammar.Proofs.PairingRuns
import TripleGrammar.Proofs.OpenNodes
import TripleGrammar.Proofs.LinkedTwins
import TripleGrammar.Proofs.RoundTrips
import TripleGrammar.Proofs.RuleOrders
import TripleGrammar.Proofs.Bindings
import TripleGrammar.Proofs.Saturation
import TripleGrammar.Proofs.Connections
import TripleGrammar.Proofs.ConnectedPrunings
import TripleGrammar.Proofs.EventMappings
import TripleGrammar.Proofs.Mirrors
import TripleGrammar.Proofs.PairedHosts
import TripleGrammar.Proofs.FiringCounts
import TripleGrammar.Proofs.JsonTexts
import TripleGrammar.Proofs.PreservedElements
import TripleGrammar.Proofs.Signatures
import TripleGrammar.Proofs.EnteredNodes
import TripleGrammar.Proofs.SightOrders
import TripleGrammar.Proofs.JsonRecords
import TripleGrammar.Proofs.CanonicalTexts
import TripleGrammar.Proofs.GraphTexts
import TripleGrammar.Proofs.Drawings
import TripleGrammar.Proofs.Contexts
import TripleGrammar.Proofs.LastingMatches
import TripleGrammar.Proofs.InterleavedDrafts
import TripleGrammar.Proofs.Reversals
import TripleGrammar.Proofs.DotTokens
import TripleGrammar.Proofs.DrawingTokens
import TripleGrammar.Proofs.BuiltMatrices
import TripleGrammar.Proofs.ReadMatrices
