import LayoutCheck.EntryPath
import LayoutCheck.Report

/-!
Which missing paths to create first.

The roots of the largest missing subtrees come first, then files that anchor a module or package,
then everything else by path, as far as a limit allows.
-/

namespace LayoutCheck

/-- The paths to create first, and how many the limit left out. -/
structure Remediation where
  items : List String
  omitted : Nat
  deriving DecidableEq, Repr

namespace Remediation

/-- The limit when none is given. -/
def defaultLimit : Nat := 10

/-- At most so many subtree roots are put first. -/
def maxSubtreeRoots : Nat := 3

/-- At most so many marker files follow them. -/
def maxMarkers : Nat := 5

/-- The files that anchor a module or package. -/
def markerNames : List String := ["mod.rs", "lib.rs", "main.rs", "__init__.py"]

/-- Inserts into an ascending list, unless the path is there already. -/
def insertPath (path : String) : List String → List String
  | [] => [path]
  | p :: ps =>
    if path < p then path :: p :: ps
    else if path = p then p :: ps
    else p :: insertPath path ps

/-- The distinct paths in ascending order. -/
def distinct (paths : List String) : List String := paths.foldl (fun ps p => insertPath p ps) []

/-- How many of the missing paths lie below the path. -/
def missingBelow (missing : List String) (path : String) : Nat := missing.countP (isBelow · path)

/-- The path above is not missing. -/
def isTopmost (missing : List String) (path : String) : Bool :=
  match parentPath? path with
  | none => true
  | some above => !missing.contains above

/-- More missing paths below come first, then the smaller path. -/
def rootOrder (missing : List String) (p q : String) : Bool :=
  let m := missingBelow missing p
  let n := missingBelow missing q
  decide (n < m) || (decide (n = m) && decide (p ≤ q))

/-- The topmost missing paths that have missing paths below, the largest first. -/
def subtreeRoots (missing : List String) : List String :=
  (missing.filter (fun p => isTopmost missing p && decide (0 < missingBelow missing p))).mergeSort
    (rootOrder missing)

def isMarker (path : String) : Bool := markerNames.contains (lastName path)

/-- The paths that have not been taken, as many as there is room for. -/
def takeNew (taken candidates : List String) (room : Nat) : List String :=
  (candidates.filter (fun p => !taken.contains p)).take room

/-- Chooses at most `limit` of the distinct missing paths. -/
def ofDistinct (missing : List String) (limit : Nat) : Remediation :=
  let roots := (subtreeRoots missing).take (min maxSubtreeRoots limit)
  let markers := takeNew roots (missing.filter isMarker) (min maxMarkers (limit - roots.length))
  let first := roots ++ markers
  let items := first ++ takeNew first missing (limit - first.length)
  ⟨items, missing.length - items.length⟩

/-- Chooses at most `limit` of the missing paths. -/
def ofMissing (paths : List String) (limit : Nat) : Remediation := ofDistinct (distinct paths) limit

/-- There is nothing to create. -/
def isEmpty (r : Remediation) : Bool := r.items.isEmpty

end Remediation

/-- What to create first to mend what a report lists as missing. -/
def Report.remediation (r : Report) (limit : Nat) : Remediation := .ofMissing r.missing limit

end LayoutCheck
