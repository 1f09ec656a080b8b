import Kleene.Correction.Drawing
import Kleene.Elimination.Trace
import Kleene.Main
import Kleene.Proofs.Isolation
import Kleene.Proofs.Absorption
import Kleene.Proofs.RegularOperations
import Kleene.Proofs.Evaluation
import Kleene.Proofs.Elimination
import Kleene.Proofs.PostfixLabels
import Kleene.Proofs.Synthesis
import Kleene.Proofs.Grammar
import Kleene.Proofs.Spelling
import Kleene.Proofs.TextLabels
import Kleene.Proofs.Printing
import Kleene.Proofs.Deterministic
import Kleene.Proofs.SubsetConstruction
import Kleene.Proofs.Refinement
import Kleene.Proofs.Liveness
import Kleene.Proofs.Minimization
import Kleene.Proofs.Runs
import Kleene.Proofs.Changes
import Kleene.Proofs.Distinguishing
import Kleene.Proofs.Canonical
import Kleene.Proofs.Completion
import Kleene.Proofs.CheckedMinimization
import Kleene.Proofs.Determinization
import Kleene.Proofs.Comparison
import Kleene.Proofs.Pipeline
import Kleene.Proofs.Edits
import Kleene.Proofs.PathCosts
import Kleene.Proofs.Alignment
import Kleene.Proofs.Derivations
import Kleene.Proofs.Reading
import Kleene.Proofs.Recognition
import Kleene.Proofs.Correction
import Kleene.Proofs.Traps
import Kleene.Proofs.NfaChanges
import Kleene.Proofs.CheckedOperations
import Kleene.Proofs.Histories
import Kleene.Proofs.Simulation
import Kleene.Proofs.Renumbering
import Kleene.Proofs.SubsetCompletion
import Kleene.Proofs.Lifting
import Kleene.Dfa.Multigraph
import Kleene.Proofs.Assembly
import Kleene.Proofs.CompletedGraphs
import Kleene.Proofs.Multigraph
import Kleene.Proofs.Words
import Kleene.Proofs.Differences
import Kleene.Proofs.CheckedLabels
import Kleene.Proofs.Reductions
import Kleene.Proofs.Descriptions
import Kleene.Proofs.SafeRips
import Kleene.Proofs.Chains
import Kleene.Correction.CostTable
import Kleene.Proofs.CostSquares
import Kleene.Proofs.CostTables
import Kleene.Proofs.PlainTexts
import Kleene.Proofs.ExpressionTrees
import Kleene.Proofs.Parentheses
import Kleene.Proofs.ReadingFaults
import Kleene.Proofs.ScannerLoop
import Kleene.Proofs.GroupPrefixes
import Kleene.Proofs.EscapedTexts
import Kleene.Proofs.ShortestTexts
import Kleene.Proofs.MergedQuantifiers
import Kleene.Proofs.Terminals
import Kleene.Proofs.StateCounts
import Kleene.Proofs.DeterministicDescriptions
import Kleene.Proofs.MappedLetters
import Kleene.Proofs.Copies
import Kleene.Proofs.CountedStates
import Kleene.Drawing.Outline
import Kleene.Proofs.Snapshots
import Kleene.Dfa.Hopcroft
import Kleene.Proofs.Hopcroft
import Kleene.Proofs.AppliedOperators
import Kleene.Proofs.OuterAlternations
import Kleene.Proofs.EpsilonClosures
import Kleene.Dfa.GraphSearch
import Kleene.Proofs.UsefulStates
import Kleene.Nfa.GraphOperations
import Kleene.Proofs.ContainerOperations
import Kleene.Proofs.ContainerCopies
import Kleene.Saturating
import Kleene.Proofs.Limits
import Kleene.Proofs.SubsetLimits
