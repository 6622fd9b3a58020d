import Playlists.Conformance.Cases
import Playlists.Json.Printer
import Playlists.Json.Reader
import Playlists.Json.Record
import Playlists.Transaction
import Playlists.Yaml.Settings
import Playlists.Proofs.Rows.Paths
import Playlists.Proofs.Nesting.Relation
import Playlists.Proofs.Edit.Removal
import Playlists.Proofs.Edit.Collection
import Playlists.Proofs.Tree.Siblings
import Playlists.Proofs.Tree.Rearrangement
import Playlists.Proofs.Tree.Renumbering
import Playlists.Proofs.Tree.Reordering
import Playlists.Proofs.Edit.Batch
import Playlists.Proofs.Edit.WriteBack
import Playlists.Proofs.Operation.Add
import Playlists.Proofs.Operation.Reorder
import Playlists.Proofs.Operation.Remove
import Playlists.Proofs.Session.Frame
import Playlists.Proofs.Service.Frame
import Playlists.Proofs.Service.Answers
import Playlists.Proofs.Service.WriteBack
import Playlists.Proofs.Nesting.Ancestors
import Playlists.Proofs.Service.Faults
import Playlists.Proofs.Service.Soundness
import Playlists.Proofs.Tree.Outline
import Playlists.Proofs.Tree.Playback
import Playlists.Proofs.Operation.Alike
import Playlists.Proofs.Service.Rebalancing
import Playlists.Proofs.Service.Appending
import Playlists.Proofs.Service.Refusals
import Playlists.Proofs.Edit.Dialects
import Playlists.Proofs.Transaction
import Playlists.Proofs.Rows.Grammar
import Playlists.Proofs.Service.Isolation
import Playlists.Proofs.Service.Spacing
import Playlists.Proofs.Edit.Counting
import Playlists.Proofs.Service.Capacity
import Playlists.Proofs.Operation.Claiming
import Playlists.Proofs.Service.Ordering
import Playlists.Proofs.Service.Removing
import Playlists.Proofs.Tree.Batch
import Playlists.Proofs.Service.Adding
import Playlists.Proofs.Nesting.Cycles
import Playlists.Proofs.Tree.Allocation
import Playlists.Proofs.Tree.Normalisation
import Playlists.Proofs.Tree.Relocation
import Playlists.Proofs.Tree.Listing
import Playlists.Proofs.Tree.Walk
import Playlists.Proofs.Tree.Expansion
import Playlists.Proofs.Service.Limit
import Playlists.Proofs.Tree.Loading
import Playlists.Proofs.Tree.Children
import Playlists.Proofs.Edit.Moving
import Playlists.Proofs.Edit.Rekeying
import Playlists.Proofs.Service.Reordering
import Playlists.Proofs.Rows.Spelled
import Playlists.Proofs.Conformance.Spots
import Playlists.Proofs.Conformance.Outcomes
import Playlists.Proofs.Conformance.Steps
import Playlists.Proofs.Conformance.Cases
import Playlists.Proofs.Conformance.Isolation
