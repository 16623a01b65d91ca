import Cil.Metadata.Copy
import Cil.Metadata.Implements
import Cil.Options.Load
import Cil.Code.Query
import Cil.Refill
import Cil.Session
import Cil.Tree.Coverage
import Cil.Version
import Cil.Proofs.Weave.Placement
import Cil.Proofs.Code.Layout
import Cil.Proofs.Weave.Order
import Cil.Proofs.Weave.Atomicity
import Cil.Proofs.Metadata.Path
import Cil.Proofs.Metadata.Walk
import Cil.Proofs.Listing
import Cil.Proofs.Tree.Subtree
import Cil.Proofs.Tree.Span
import Cil.Proofs.Tree.Place
import Cil.Proofs.Tree.EmptyRanges
import Cil.Proofs.Tree.Former
import Cil.Proofs.Code.Ordered
import Cil.Proofs.Session.Edit
import Cil.Proofs.Weave.Run
import Cil.Proofs.Weave.Relayout
import Cil.Proofs.Weave.Commute
import Cil.Proofs.Code.Lookup
import Cil.Proofs.Tree.Covered
import Cil.Proofs.Decode.Draws
import Cil.Proofs.Session.Identity
import Cil.Proofs.Written
import Cil.Proofs.Metadata.Acyclic
import Cil.Proofs.Metadata.Locality
import Cil.Proofs.Metadata.Copy
import Cil.Proofs.Code.Extent
import Cil.Proofs.Metadata.Growth
import Cil.Proofs.Metadata.Misses
import Cil.Proofs.Tree.Rewrite
import Cil.Proofs.Code.Ascending
import Cil.Proofs.Weave.Undo
import Cil.Proofs.Metadata.Loading
import Cil.Proofs.Options.Overrides
import Cil.Proofs.Metadata.SimpleName
import Cil.Proofs.Metadata.Sizes
import Cil.Proofs.Metadata.Items
import Cil.Proofs.Tree.Traversal
import Cil.Proofs.Tree.Parts
import Cil.Proofs.Text.Decimal
import Cil.Proofs.Json.Integer
import Cil.Proofs.RoundTrip
import Cil.Proofs.Text.Label
import Cil.Proofs.Text.Quoted
import Cil.Proofs.Opcode.Encoding
import Cil.Proofs.Instr.Text
