import Narrowing.Pool
import Narrowing.Name
import Narrowing.Type.Basic
import Narrowing.Type.Store
import Narrowing.Type.Normal
import Narrowing.Type.Pair
import Narrowing.Type.Printer
import Narrowing.Declaration
import Narrowing.Environment
import Narrowing.Selector.Basic
import Narrowing.Selector.Printer
import Narrowing.Guard
import Narrowing.Lifetime
import Narrowing.Trace
import Narrowing.Comparison.Inquiry
import Narrowing.Comparison.Rule
import Narrowing.Comparison.Run
import Narrowing.Comparison.Query
import Narrowing.Refinement
import Narrowing.Narrowed
import Narrowing.TypeExpr
import Narrowing.Text.Blank
import Narrowing.Logging
import Narrowing.Storage.Ledger
import Narrowing.Storage.Atoms
import Narrowing.Storage.Interner
import Narrowing.Proofs.Dispatch
import Narrowing.Proofs.Graph
import Narrowing.Proofs.Settlement
import Narrowing.Proofs.Attempts
import Narrowing.Proofs.Justification
import Narrowing.Proofs.Termination
import Narrowing.Proofs.Completeness
import Narrowing.Proofs.Soundness
import Narrowing.Proofs.Growth
import Narrowing.Proofs.Nesting
import Narrowing.Proofs.JustifiedLaws
import Narrowing.Proofs.SelectorFit
import Narrowing.Proofs.RefinementTarget
import Narrowing.Proofs.Reflexivity
import Narrowing.Proofs.Grounded
import Narrowing.Proofs.Transitivity
import Narrowing.Proofs.Transparency
import Narrowing.Proofs.Meaning
import Narrowing.Proofs.ValueSoundness
import Narrowing.Proofs.LargerLimits
import Narrowing.Proofs.SelectorOrder
import Narrowing.Proofs.Contracts
import Narrowing.Proofs.Precision
import Narrowing.Proofs.Histories
import Narrowing.Proofs.SelectorForm
import Narrowing.Proofs.Tree
import Narrowing.Proofs.HashConsing
import Narrowing.Proofs.ReadOnly
import Narrowing.Proofs.Unguarded
import Narrowing.Proofs.RefinementSource
import Narrowing.Proofs.Invariance
import Narrowing.Proofs.Void
import Narrowing.Proofs.UnionArrangement
import Narrowing.Proofs.TraceAccount
import Narrowing.Proofs.NormalForm
import Narrowing.Proofs.Groupings
import Narrowing.Proofs.GuardHistory
import Narrowing.Proofs.LifetimeNesting
import Narrowing.Proofs.StructuralOrder
import Narrowing.Proofs.WrittenTree
import Narrowing.Proofs.Reader
import Narrowing.Proofs.Reading
import Narrowing.Proofs.Legibility
import Narrowing.Proofs.Assumptions
import Narrowing.Proofs.SelectorText
import Narrowing.Proofs.Balance
import Narrowing.Proofs.Naming
import Narrowing.Proofs.Ledgers
import Narrowing.Proofs.Atoms
import Narrowing.Proofs.Interning
import Narrowing.Proofs.Renumbering
import Narrowing.Proofs.Mirroring
import Narrowing.Proofs.Canonicity
