import RefGraph.Disk
import RefGraph.Options.Reading
import RefGraph.Scan

/-!
# Scanning a disk

* `Disk.scan`: the graph of a directory, whose path is freed of links first.
-/

namespace RefGraph.Disk

/-- The graph of the tree below a root. -/
def scan (d : Disk) (o : Options) (root : Path) : Except ScanError GraphData :=
  match d.canonical root with
  | .error e => .error (.unusableRoot root e.message)
  | .ok root => RefGraph.scan d.fileSystem o root

end RefGraph.Disk
