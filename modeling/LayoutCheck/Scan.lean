import LayoutCheck.Attempt
import LayoutCheck.FileSystem
import LayoutCheck.Scan.Directory

/-!
Scans of the tree below a root.

A scan is made in surroundings in which every walk ends (`BoundedSurroundings`), so it has a tree
unless the root is missing.
-/

namespace LayoutCheck

/-- Surroundings in which a walk goes only so deep, from every way on. -/
structure BoundedSurroundings (ω δ : Type) [DecidableEq δ] extends Surroundings ω δ where
  depth : Nat
  nestsAtMost : ∀ way, Scan.NestsAtMost toSurroundings depth ⟨[], way⟩

namespace Scan

/-- The name of a root that has none. -/
def unnamedRoot : String := "project_root"

/-- Why nothing can be scanned. -/
inductive ScanError where
  | rootNotFound (display : String)
  | rootMetadata (display : String) (cause : OsError)
  deriving DecidableEq, Repr

namespace ScanError

def message : ScanError → String
  | rootNotFound display => s!"Root path does not exist: {display}"
  | rootMetadata display _ => s!"Failed to inspect root path: {display}"

/-- The text of the error behind this one, if there is one. -/
def cause? : ScanError → Option String
  | rootNotFound _ => none
  | rootMetadata _ cause => some cause.text

end ScanError

/-- What is known of the root of a scan before the scan. -/
structure Root (ω : Type) where
  path : String
  /-- the absolute path -/
  display : String
  /-- the last name of the absolute path -/
  baseName : Option String
  /-- the way to the directory that the path leads to, if it leads to one -/
  way : Except OsError (Option ω)

variable {ω δ : Type} [DecidableEq δ]

theorem isSome_finish_directory (s : BoundedSurroundings ω δ) (extra : List String)
    (path name : String) (way : ω) :
    (directory s.toSurroundings extra s.depth path name way).finish.isSome := by
  obtain ⟨t, ht⟩ := exists_endsIn (s.nestsAtMost way) extra name
  obtain ⟨messages, h⟩ := (ht s.depth (Nat.le_refl _) path).exists_finish
  rw [h]
  rfl

/-- The tree below the root; a root that is no directory is a file. -/
def scan (s : BoundedSurroundings ω δ) (extra : List String) (root : Root ω) :
    Attempt ScanError Tree := do
  match root.way with
  | .error .notFound => throw (.rootNotFound root.display)
  | .error cause => throw (.rootMetadata root.display cause)
  | .ok target =>
    let name := root.baseName.getD unnamedRoot
    Log.debug s!"Scanning {root.display} as '{name}'"
    match target with
    | none => return .leaf name
    | some way =>
      (directory s.toSurroundings extra s.depth root.path name way).finish.get
        (isSome_finish_directory s extra root.path name way)

/-- A scan of a directory has the tree in which the walk ends. -/
theorem outcome_scan {s : BoundedSurroundings ω δ} {extra : List String} {root : Root ω} {way : ω}
    {n : Nat} {t : Tree} (hroot : root.way = .ok (some way))
    (ht : EndsIn s.toSurroundings extra n ⟨[], way⟩ (root.baseName.getD unnamedRoot) t) :
    (scan s extra root).outcome = .ok t := by
  obtain ⟨u, hu⟩ := exists_endsIn (s.nestsAtMost way) extra (root.baseName.getD unnamedRoot)
  obtain ⟨messages, h⟩ := (hu s.depth (Nat.le_refl _) root.path).exists_finish
  rw [ht.unique hu]
  simp only [scan, hroot, h, Option.get_some]
  rfl

end Scan

end LayoutCheck
