import SortedRewriting.Proofs.Expr.Bindings
import SortedRewriting.Proofs.Expr.Classes
import SortedRewriting.Proofs.Lists
import SortedRewriting.Proofs.Symbolic.Building
import SortedRewriting.Proofs.Symbolic.Memo
import SortedRewriting.Proofs.Transition.Checker
import SortedRewriting.Proofs.Tree.Bounds
import SortedRewriting.Proofs.Tree.Shape
import SortedRewriting.Query
import SortedRewriting.Symbolic.Printing
import SortedRewriting.Proofs.Expr.Matching
import SortedRewriting.Proofs.Engine.Agreement
import SortedRewriting.Proofs.Engine.Pattern
import SortedRewriting.Proofs.Engine.Construction
import SortedRewriting.Proofs.Symbolic.Functions
import SortedRewriting.Proofs.Engine.Functions
import SortedRewriting.Proofs.Engine.Calls
import SortedRewriting.Proofs.Theory.Elaboration
import SortedRewriting.Proofs.Engine.Encoding
import SortedRewriting.Proofs.Engine.Compiled
import SortedRewriting.Proofs.Engine.Simulation
import SortedRewriting.Proofs.Trace.Derivation
import SortedRewriting.Proofs.Query.System
import SortedRewriting.Proofs.Query.Verdict
import SortedRewriting.Proofs.Engine.Freshness
import SortedRewriting.Proofs.Engine.Canonical
import SortedRewriting.Proofs.Engine.Opposite
import SortedRewriting.Proofs.Query.Symmetry
import SortedRewriting.Proofs.Tree.Replacing
import SortedRewriting.Proofs.Expr.Instances
import SortedRewriting.Proofs.Engine.Decoding
import SortedRewriting.Proofs.Theory.Inference
import SortedRewriting.Proofs.Theory.Sorting
import SortedRewriting.Proofs.Theory.Order
import SortedRewriting.Proofs.Theory.Settled
import SortedRewriting.Proofs.Theory.Replacing
import SortedRewriting.Proofs.Engine.Sorting
import SortedRewriting.Proofs.Engine.RoundTrip
import SortedRewriting.Proofs.Engine.Naming
import SortedRewriting.Proofs.Engine.Injectivity
import SortedRewriting.Proofs.Query.Immediate
import SortedRewriting.Proofs.Engine.Legibility
import SortedRewriting.Proofs.Trace.Reading
import SortedRewriting.Proofs.Engine.Totality
import SortedRewriting.Proofs.Digest.Layout
import SortedRewriting.Proofs.Tree.Fingerprint
import SortedRewriting.Proofs.Trace.Replay
import SortedRewriting.Trace.Editing
import SortedRewriting.Proofs.Trace.Editing
import SortedRewriting.Proofs.Cbor.Prefix
import SortedRewriting.Proofs.Cbor.RoundTrip
import SortedRewriting.Proofs.Transition.Format
import SortedRewriting.Proofs.Theory.Substitution
import SortedRewriting.Proofs.Engine.Instances
import SortedRewriting.Proofs.Theory.Erasure
import SortedRewriting.Proofs.Theory.FixedPoint
import SortedRewriting.Proofs.Theory.Cycles
import SortedRewriting.Proofs.Theory.Blame
import SortedRewriting.Proofs.Symbolic.Unfolding
import SortedRewriting.Proofs.Symbolic.Nesting
import SortedRewriting.Proofs.Symbolic.Plain
import SortedRewriting.Proofs.Symbolic.Soundness
import SortedRewriting.Proofs.Tree.Laws
import SortedRewriting.Proofs.Engine.Access
import SortedRewriting.Proofs.Engine.Independence
import SortedRewriting.Proofs.Transition.Monotone
import SortedRewriting.Proofs.Symbolic.Walking
import SortedRewriting.Proofs.Symbolic.Strata
import SortedRewriting.Transition.Preparation
import SortedRewriting.Proofs.Transition.Preparation
import SortedRewriting.Proofs.Tree.PathNames
import SortedRewriting.Proofs.CodeBook.Registration
import SortedRewriting.Proofs.Expr.Checked
import SortedRewriting.Proofs.Theory.Shape
import SortedRewriting.Proofs.Expr.Positions
import SortedRewriting.Proofs.Expr.Grouping
import SortedRewriting.Proofs.Digest.SelfDelimiting
import SortedRewriting.Proofs.Expr.Fingerprint
import SortedRewriting.Proofs.Theory.Fingerprint
import SortedRewriting.Proofs.Engine.Fingerprint
import SortedRewriting.Proofs.Transition.Enumeration
