import LayoutCheck.Scan

/-!
Directories that are the same on every way: what a name leads to depends only on the directory that
lists it. Such directories form a graph, in which links can make cycles.
-/

namespace LayoutCheck

/-- Finitely many directories, each listing names that lead to some of them or to no directory. -/
structure DirectoryGraph (δ : Type) where
  directories : List δ
  mem_directories : ∀ d, d ∈ directories
  /-- what the directory lists, or an error text -/
  list : δ → Except String (List (Listed δ))
  nodup_names : ∀ d entries, list d = .ok entries → (entries.map Listed.name).Nodup

namespace DirectoryGraph

variable {δ : Type} [DecidableEq δ]

/-- The way to a directory is the directory itself. -/
def toSurroundings (g : DirectoryGraph δ) : Surroundings δ δ where
  identity := some
  list := g.list

theorem nestsAtMost (g : DirectoryGraph δ) (v : Scan.Visit δ δ) :
    Scan.NestsAtMost g.toSurroundings (g.directories.length + 1) v :=
  Scan.nestsAtMost_of_knownBy (fun d _ _ => ⟨d, g.mem_directories d, rfl⟩)
    (Nat.lt_succ_of_le (List.length_filter_le _ _))

def surroundings (g : DirectoryGraph δ) : BoundedSurroundings δ δ where
  toSurroundings := g.toSurroundings
  depth := g.directories.length + 1
  nestsAtMost _ := g.nestsAtMost _

/-- Scans the tree below a directory of the graph, of which the path and the name are given. -/
def scan (g : DirectoryGraph δ) (extra : List String) (path name : String)
    (directory : δ) : Attempt Scan.ScanError Tree :=
  Scan.scan g.surroundings extra ⟨path, path, some name, .ok (some directory)⟩

end DirectoryGraph

end LayoutCheck
