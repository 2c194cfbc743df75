import LayoutCheck.Scan

/-!
What a scan learns in a file system.

The way to a directory is the path on which the scan comes to it; its absolute path without links
says which directory it is. The system is given a way as a whole, so links are counted from its
beginning, and it must not be too long: this is why a scan ends even where no absolute path can be
found out.
-/

namespace LayoutCheck

/-- Lists a directory by its path, unless the path is too long. Names lead only to longer paths. -/
def listPath (list : String → Except String (List (Listed String))) (path : String) :
    Except String (List (Listed String)) :=
  if FileSystem.maxPathSize ≤ path.utf8ByteSize then .error OsError.nameTooLong.text
  else
    match list path with
    | .error text => .error text
    | .ok entries =>
      .ok (entries.map fun e => ⟨e.name, e.way.filter (path.utf8ByteSize < ·.utf8ByteSize)⟩)

theorem size_lt_of_listPath {list : String → Except String (List (Listed String))} {path : String}
    {entries : List (Listed String)} (h : listPath list path = .ok entries) :
    path.utf8ByteSize < FileSystem.maxPathSize ∧
      ∀ e ∈ entries, ∀ on ∈ e.way, path.utf8ByteSize < on.utf8ByteSize := by
  unfold listPath at h
  split at h
  · cases h
  · rename_i hsize
    split at h
    · cases h
    · cases h
      refine ⟨Nat.lt_of_not_le hsize, fun e he on hon => ?_⟩
      obtain ⟨b, -, rfl⟩ := List.mem_map.1 he
      exact of_decide_eq_true (Option.mem_filter_iff.1 hon).2

/-- Ways that are paths. Each name makes them longer, so walks end. -/
def BoundedSurroundings.ofPaths {δ : Type} [DecidableEq δ] (identity : String → Option δ)
    (list : String → Except String (List (Listed String))) : BoundedSurroundings String δ where
  identity := identity
  list := listPath list
  depth := FileSystem.maxPathSize + 1
  nestsAtMost _ :=
    Scan.nestsAtMost_of_size String.utf8ByteSize FileSystem.maxPathSize
      (fun _ _ h => (size_lt_of_listPath h).1) (fun _ _ h => (size_lt_of_listPath h).2)
      (Nat.lt_succ_of_le (Nat.sub_le _ _))

namespace FileSystem

/-- The path is the way to a directory. -/
def isWay (fs : FileSystem) (path : String) : Bool :=
  match fs.lookUp path with
  | .ok entry => entry.isDirectory
  | .error _ => false

/-- An entry of the directory at the path, with the way on if the name leads to a directory. -/
def listed (fs : FileSystem) (path name : String) : Listed String :=
  let below := childPath path name
  ⟨name, if fs.isWay below then some below else none⟩

/-- What the directory at the path lists. -/
def listDirectory (fs : FileSystem) (path : String) : Except String (List (Listed String)) :=
  match fs.lookUp path with
  | .ok (.directory entries) => .ok (entries.map (fun e => fs.listed path e.1))
  | .ok _ => .error OsError.notDirectory.text
  | .error cause => .error cause.text

def surroundings (fs : FileSystem) : BoundedSurroundings String String :=
  .ofPaths (fun path => (fs.resolve path).toOption.map absoluteText) fs.listDirectory

/-- What a path is as the root of a scan. -/
def scanRoot (fs : FileSystem) (path : String) : Scan.Root String where
  path := path
  display := fs.display path
  baseName := fs.baseName path
  way := (fs.lookUp path).map (fun entry => if entry.isDirectory then some path else none)

theorem way_scanRoot_of_lookUp {fs : FileSystem} {path : String} {entry : Entry}
    (h : fs.lookUp path = .ok entry) :
    (fs.scanRoot path).way = .ok (if entry.isDirectory then some path else none) := by
  rw [scanRoot, h]
  rfl

/-- Scans the tree below a path. -/
def scan (fs : FileSystem) (extra : List String) (path : String) : Attempt Scan.ScanError Tree :=
  Scan.scan fs.surroundings extra (fs.scanRoot path)

end FileSystem

end LayoutCheck
