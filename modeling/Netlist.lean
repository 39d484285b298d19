import Netlist.Emission.Drawing
import Netlist.Emission.Records
import Netlist.Project.Session
import Netlist.Sample
import Netlist.Proofs.Flatten.Order
import Netlist.Proofs.Json.RoundTrip
import Netlist.Proofs.Document.Values
import Netlist.Proofs.Document.Graph
import Netlist.Proofs.Document.Catalog
import Netlist.Proofs.Catalog.Regular
import Netlist.Proofs.Project.Session
import Netlist.Store.Basic
import Netlist.Store.SlotGraph
import Netlist.Proofs.Store.SlotGraph
import Netlist.Proofs.Store.Represents
import Netlist.Proofs.Store.Wiring
import Netlist.Proofs.Store.Coherent
import Netlist.Flatten.Construction
import Netlist.Proofs.Document.Construction
import Netlist.Proofs.Library.Registration
import Netlist.Proofs.Library.Acyclic
import Netlist.Proofs.Library.Workspace
import Netlist.Proofs.Document.Flattening
import Netlist.Proofs.Library.BuildOrder
import Netlist.Proofs.Catalog.Locality
import Netlist.Proofs.Flatten.Locality
import Netlist.Proofs.Library.Loading
import Netlist.Proofs.Library.Lazy
import Netlist.Proofs.Catalog.Registered
import Netlist.Flatten.Unroll
import Netlist.Proofs.Flatten.Unroll
import Netlist.Proofs.Library.Resolution
import Netlist.Proofs.Library.Extension
import Netlist.Header.Grammar
import Netlist.Proofs.Header.Reader
import Netlist.Proofs.Catalog.Refused
import Netlist.Proofs.Wiring.Replay
import Netlist.Proofs.Document.Merging
import Netlist.Proofs.Cycle
import Netlist.Proofs.TypeTable.References
import Netlist.Proofs.Document.Order
import Netlist.Proofs.Library.Outcome
import Netlist.Proofs.Library.AnyOrder
import Netlist.Proofs.TypeTable.Expansion
import Netlist.Proofs.TypeTable.Registration
import Netlist.Proofs.TypeTable.Width
import Netlist.Proofs.TypeTable.Comparison
import Netlist.Proofs.Emission.Drawing
import Netlist.Proofs.Emission.Records
import Netlist.Header.Layout
import Netlist.Header.Scanner
import Netlist.Proofs.Header.Lexemes
import Netlist.Proofs.Header.Layout
import Netlist.Proofs.Header.Scanner
import Netlist.Proofs.Header.Spans
import Netlist.Proofs.Header.Slices
import Netlist.Proofs.Catalog.Leaves
import Netlist.Proofs.Header.Interfaces
import Netlist.Proofs.Header.Joined
import Netlist.Proofs.Header.Moves
import Netlist.Proofs.Header.Completion
import Netlist.Proofs.Library.Faults
import Netlist.Proofs.Flatten.Paths
import Netlist.Proofs.Flatten.Collisions
