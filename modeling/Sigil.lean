import Sigil.Heap.MapStep
import Sigil.Main
import Sigil.Reader.Part
import Sigil.Proofs.Reader.Feed
import Sigil.Proofs.Reader.Fresh
import Sigil.Proofs.Reader.Relocation
import Sigil.Proofs.Reader.Concatenation
import Sigil.Proofs.Reader.Extent
import Sigil.Proofs.Reader.Enclosed
import Sigil.Proofs.Reader.Delimited
import Sigil.Proofs.Expr.Atoms
import Sigil.Proofs.Number.Bits
import Sigil.Proofs.Number.Neighbourhood
import Sigil.Proofs.Number.Numeral
import Sigil.Proofs.Reader.Resume
import Sigil.Proofs.Number.Decimal
import Sigil.Proofs.Number.FloatText
import Sigil.Proofs.Reader.Printed
import Sigil.Proofs.Reader.Produced
import Sigil.Proofs.Reader.Reprinted
import Sigil.Proofs.Heap.Association
import Sigil.Proofs.Eval.Framed
import Sigil.Proofs.Eval.Rules
import Sigil.Proofs.Session.Behind
import Sigil.Proofs.Session.Composition
import Sigil.Proofs.Heap.Contents
import Sigil.Proofs.Heap.Keys
import Sigil.Proofs.Reader.Literal
import Sigil.Proofs.Eval.Yields
import Sigil.Proofs.Heap.Construction
import Sigil.Proofs.Eval.Makes
import Sigil.Proofs.Session.Rebuilt
import Sigil.Proofs.Eval.Unwound
import Sigil.Proofs.Reader.Completion
import Sigil.Proofs.Reader.Final
import Sigil.Proofs.Session.Outcome
import Sigil.Proofs.Reader.Conservative
import Sigil.Proofs.Reader.Located
import Sigil.Proofs.Reader.Cut
import Sigil.Proofs.Reader.Descent
import Sigil.Proofs.Reader.Agreement
import Sigil.Proofs.Registry.Tables
import Sigil.Proofs.Reader.Progress
import Sigil.Proofs.Cli.Entries
import Sigil.Proofs.Registry.History
import Sigil.Proofs.Session.Loading
import Sigil.Proofs.Eval.Bindings
import Sigil.Proofs.Eval.Growth
import Sigil.Proofs.Eval.Renamed
import Sigil.Proofs.Session.Beside
import Sigil.Proofs.Session.Isolation
import Sigil.Proofs.Path.Grammar
import Sigil.Proofs.Registry.Pairs
import Sigil.Proofs.Heap.MapEquality
import Sigil.Proofs.Session.Requoted
import Sigil.Proofs.Heap.Region
import Sigil.Proofs.Heap.Closed
import Sigil.Proofs.Heap.Merged
import Sigil.Proofs.Heap.Past
import Sigil.Proofs.Heap.Rescoped
import Sigil.Proofs.Eval.Watch
import Sigil.Proofs.Eval.Confined
import Sigil.Proofs.Eval.ConfinedRules
import Sigil.Proofs.Eval.Depth
import Sigil.Proofs.Eval.Regional
import Sigil.Proofs.Eval.Runs
import Sigil.Proofs.Eval.VectorForm
import Sigil.Proofs.Eval.MapForm
import Sigil.Proofs.Eval.LetForm
import Sigil.Proofs.Eval.Applied
import Sigil.Proofs.Eval.Nest
import Sigil.Proofs.Eval.NestLinks
import Sigil.Proofs.Eval.LetStar
import Sigil.Proofs.Eval.NestedLet
import Sigil.Proofs.Eval.Arguments
import Sigil.Proofs.Reader.Innermost
import Sigil.Proofs.Reader.Comment
import Sigil.Proofs.Registry.Listed
import Sigil.Proofs.Cursor.Places
import Sigil.Proofs.Session.Blame
import Sigil.Proofs.Session.Context
import Sigil.Proofs.Heap.Predicates
import Sigil.Proofs.Heap.Environment
import Sigil.Proofs.Heap.Extension
import Sigil.Proofs.Eval.Functions
import Sigil.Proofs.Eval.Mapcar
import Sigil.Proofs.Prelude.Definitions
import Sigil.Proofs.Prelude.Constantly
import Sigil.Proofs.Prelude.Merge
