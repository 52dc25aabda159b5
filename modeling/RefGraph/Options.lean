import RefGraph.Graph.Model

/-!
# Options

What a scan can be told: how many files it may find, how detailed the graph is, which beginnings of
specifiers stand for the root, and which files are routes.
-/

namespace RefGraph

/-- The options of a scan. -/
structure Options where
  maxFiles : Nat := 10000
  includeExternal : Bool := false
  granularity : Granularity := .file
  aliases : List String := ["~/", "@/"]
  routePatterns : List String :=
    ["**/routes/*.\x7bjs,jsx,ts,tsx,mjs,cjs\x7d", "**/pages/_*.\x7bjs,jsx,ts,tsx,mjs,cjs\x7d"]
deriving DecidableEq, Repr, Inhabited

/-- The name of the file in the root of a tree that holds options. -/
def optionsFileName : String := "modgraph.toml"

end RefGraph
