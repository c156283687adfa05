import Recompile.Project
import Recompile.Snapshot.Report
import Recompile.Proofs.Survey.Fresh
import Recompile.Proofs.Reach
import Recompile.Proofs.Survey.Search
import Recompile.Proofs.Survey.Describes
import Recompile.Proofs.Survey.Lookups
import Recompile.Proofs.Survey.Opened
import Recompile.Proofs.Diff.Graph
import Recompile.Proofs.Diff.FinalState
import Recompile.Proofs.Diff.Invalidation
import Recompile.Proofs.Diff.IncludeClosure
import Recompile.Proofs.Diff.Isolation
import Recompile.Proofs.Diff.Lookups
import Recompile.Proofs.Build.Outputs
import Recompile.Proofs.Build.Recovery
import Recompile.Proofs.Build.Failure
import Recompile.Proofs.Bytes
import Recompile.Proofs.Text.Utf8
import Recompile.Proofs.Wire
import Recompile.Proofs.Snapshot.Wire
import Recompile.Proofs.Directive.Splice
import Recompile.Proofs.Snapshot.File
import Recompile.Proofs.FileTree.Entry
import Recompile.Proofs.Path.Pieces
import Recompile.Proofs.FileTree.Normal
import Recompile.Proofs.Store.Names
import Recompile.Proofs.Store.Files
import Recompile.Proofs.Store.Calls
import Recompile.Proofs.Store.Map
import Recompile.Proofs.FileTree.Anchored
import Recompile.Proofs.Store.Leftover
import Recompile.Proofs.Store.Steps
import Recompile.Proofs.Diff.Decisions
import Recompile.Proofs.Directive.Lines
import Recompile.Proofs.Build.Watch
import Recompile.Proofs.Diff.Nodes
import Recompile.Proofs.Directive.Comments
import Recompile.Proofs.Directive.RoundTrip
import Recompile.Proofs.Directive.Beginning
import Recompile.Proofs.Survey.Batches
import Recompile.Proofs.Diff.Headers
import Recompile.Proofs.Wire.Local
import Recompile.Proofs.Store.Damage
import Recompile.Proofs.Survey.Memory
import Recompile.Proofs.Survey.Reuse
import Recompile.Proofs.Path.Canonical
import Recompile.Proofs.FileTree.Following
import Recompile.Proofs.Survey.Ends
import Recompile.Proofs.Build.Request
import Recompile.Proofs.Store.Collecting
import Recompile.Proofs.Directive.Origin
