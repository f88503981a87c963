import Lalr.Symbol
import Lalr.Rule
import Lalr.Defect
import Lalr.Fault
import Lalr.Fixpoint
import Lalr.Grammar
import Lalr.Grammar.Validation
import Lalr.Grammar.Builder
import Lalr.Grammar.Analysis
import Lalr.Grammar.Augmented
import Lalr.Item
import Lalr.ItemSet
import Lalr.ItemSet.Indexed
import Lalr.Automaton.Closure
import Lalr.Automaton
import Lalr.Automaton.Lookahead
import Lalr.Automaton.Report
import Lalr.Notice
import Lalr.Table.Action
import Lalr.Table
import Lalr.Table.Listing
import Lalr.Table.Construction
import Lalr.Table.Flat
import Lalr.Table.Source
import Lalr.Table.Shared
import Lalr.Parser.Error
import Lalr.Parser.Stack
import Lalr.Parser.Context
import Lalr.Parser
import Lalr.Parser.Tree
import Lalr.Parser.Script
import Lalr.Proofs.Settle
import Lalr.Proofs.Derivation
import Lalr.Proofs.Analysis
import Lalr.Proofs.Defects
import Lalr.Proofs.WellFormed
import Lalr.Proofs.ItemSet
import Lalr.Proofs.Saturation
import Lalr.Proofs.FollowSets
import Lalr.Proofs.LeastAnalysis
import Lalr.Proofs.Sweeping
import Lalr.Proofs.Closure
import Lalr.Proofs.LeastClosure
import Lalr.Proofs.Probing
import Lalr.Proofs.Exploration
import Lalr.Proofs.ItemHistory
import Lalr.Proofs.Determinization
import Lalr.Proofs.Equivariance
import Lalr.Proofs.Propagation
import Lalr.Proofs.Lookahead
import Lalr.Proofs.Cells
import Lalr.Proofs.Validation
import Lalr.Proofs.Canonical
import Lalr.Proofs.Stack
import Lalr.Proofs.Trees
import Lalr.Proofs.Run
import Lalr.Proofs.Rows
import Lalr.Proofs.Calls
import Lalr.Proofs.Prediction
import Lalr.Proofs.Translation
import Lalr.Proofs.Isomorphism
import Lalr.Proofs.Soundness
import Lalr.Proofs.Reordering
import Lalr.Proofs.Driving
import Lalr.Proofs.Completeness
import Lalr.Proofs.Halting
import Lalr.Proofs.Renaming
import Lalr.Proofs.Following
import Lalr.Proofs.Labels
import Lalr.Proofs.Refusal
import Lalr.Proofs.Termination
import Lalr.Proofs.Contents
import Lalr.Proofs.Acceptance
import Lalr.Proofs.Viable
import Lalr.Proofs.Ambiguity
import Lalr.Proofs.Trial
import Lalr.Proofs.Expected
import Lalr.Proofs.Flat.Reading
import Lalr.Proofs.Flat.Bounds
import Lalr.Proofs.Flat.Consistency
import Lalr.Proofs.Flat.Writing
import Lalr.Proofs.Flat.RoundTrip
import Lalr.Proofs.Flat.NormalForm
import Lalr.Proofs.Flat.Generated
import Lalr.Proofs.SourceText
import Lalr.Proofs.Conservation
import Lalr.Proofs.FollowLookaheads
import Lalr.Proofs.ItemOrder
import Lalr.Proofs.Warnings
import Lalr.Proofs.Building
import Lalr.Proofs.Attempts
import Lalr.Proofs.Recovery
import Lalr.Proofs.Limits
