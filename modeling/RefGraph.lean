import RefGraph.FileSystem.Memory
import RefGraph.Main
import RefGraph.Watch.Session
import RefGraph.Proofs.FirstByKey
import RefGraph.Proofs.Path.Joining
import RefGraph.Proofs.Graph.Consistency
import RefGraph.Proofs.Graph.Calls
import RefGraph.Proofs.Assembly.Steps
import RefGraph.Proofs.Assembly.Granularity
import RefGraph.Proofs.Assembly.Edges
import RefGraph.Proofs.Walk.Visits
import RefGraph.Proofs.Walk.Meaning
import RefGraph.Proofs.Ignore.Subtree
import RefGraph.Proofs.Snapshot.RoundTrip
import RefGraph.Proofs.Scan.Confined
import RefGraph.Proofs.Scan.Unread
import RefGraph.Proofs.Scan.Silencing
import RefGraph.Proofs.Scan.Apart
import RefGraph.Proofs.Scan.Places
import RefGraph.Proofs.Watch.Rounds
import RefGraph.Proofs.Watch.Counting
import RefGraph.Proofs.FileSystem.Contents
import RefGraph.Proofs.Scan.Alike
import RefGraph.Proofs.FileSystem.Listings
import RefGraph.Proofs.Disk.Plain
import RefGraph.Proofs.Disk.InMemory
import RefGraph.Proofs.Scan.Candidates
import RefGraph.Proofs.Scan.Moved
import RefGraph.Proofs.Glob.Nested
import RefGraph.Proofs.Ignore.Moved
import RefGraph.Proofs.Watch.History
import RefGraph.Proofs.Watch.Signals
import RefGraph.Proofs.Resolution.FromRoot
import RefGraph.Proofs.Walk.Capacity
import RefGraph.Proofs.Script.References
import RefGraph.Proofs.Script.Parts
import RefGraph.Proofs.Script.States
import RefGraph.Proofs.Script.Readings
import RefGraph.Proofs.Script.Lexemes
import RefGraph.Proofs.Script.Contextual
import RefGraph.Proofs.Script.Malformed
import RefGraph.Proofs.Resolution.Relative
import RefGraph.Proofs.Ignore.AtRoot
import RefGraph.Proofs.RemoteSpecifiers
import RefGraph.Proofs.Script.Exports
import RefGraph.Proofs.Style.Sheets
import RefGraph.Proofs.Style.Reading
import RefGraph.Proofs.RepositoryRoot
import RefGraph.Proofs.Disk.Walks
import RefGraph.Proofs.Graph.Identifiers
import RefGraph.Proofs.Disk.Listed
import RefGraph.Proofs.Assembly.Routes
import RefGraph.Proofs.Style.Bytes
import RefGraph.Proofs.Disk.Canonical
import RefGraph.Proofs.FileSystem.Closed
