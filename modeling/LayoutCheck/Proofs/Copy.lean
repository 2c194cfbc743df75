import LayoutCheck.Proofs.Counterparts
import LayoutCheck.Proofs.Prune
import LayoutCheck.Proofs.Rearrangement
import LayoutCheck.Proofs.StoredCopy
import LayoutCheck.Proofs.Verdict
import Mathlib.Data.List.Perm.Basic

/-!
Checking a copy of the declared tree.

The scan of a copy finds what is declared except for the names that a scan passes over
(`IsCopy.rearranged`). So everything below the root is compliant or missing, and the copy is
compliant if no declared name is passed over (`compareRoots_copy`). This is so for a directory of
the file system that holds the tree (`Entry.Holds.compareRoots_scan`).
-/

namespace LayoutCheck

open Scan (isIgnored shown NestsAtMost EntryEndsIn EndsIn)

variable {ω δ : Type} {s : Surroundings ω δ} {extra : List String} {ancestors : List δ}
  {target : Option ω} {t a : Tree} {m n : Nat}

/-- Visible entries have the names that are declared and not passed over. -/
theorem perm_names_visible {entries : List (Listed ω)} {cs : List Tree}
    (h : (entries.map Listed.name).Perm (cs.map Tree.name)) :
    ((Scan.visible extra entries).map Listed.name).Perm
      ((cs.filter (fun c => !isIgnored extra c.name)).map Tree.name) := by
  have hkept := h.filter (fun n => !isIgnored extra n)
  rw [List.filter_map, List.filter_map] at hkept
  exact ((Scan.perm_visible extra entries).map Listed.name).trans hkept

/-- A directory of the same names with rearranged entries under them is rearranged. -/
theorem rearranged_prune_directory {out : String → Bool} {name : String} {d b : Option String}
    {cs : List Tree} {entries : List (Listed ω)} {tree : Listed ω → Tree}
    (hnames : (entries.map Listed.name).Perm ((cs.filter (fun c => !out c.name)).map Tree.name))
    (h : ∀ e ∈ entries, ∀ c ∈ cs, c.name = e.name → (c.prune out).Rearranged (tree e)) :
    ((Tree.directory name d cs).prune out).Rearranged
      (.directory name b (entries.map tree)) := by
  obtain ⟨ms, hms, hperm⟩ := (congrFun₂ (List.eq_map_comp_perm Tree.name) _ _).mpr hnames
  have hsame : List.Forall₂ (fun c e => c.name = e.name) ms entries := by
    have heq : List.Forall₂ Eq (ms.map Tree.name) (entries.map Listed.name) := by
      rw [List.forall₂_eq_eq_eq, hms]
    rwa [List.forall₂_map_left_iff, List.forall₂_map_right_iff] at heq
  have hall : List.Forall₂ (fun c e => (c.prune out).Rearranged (tree e)) ms entries := by
    obtain ⟨hlength, hzip⟩ := List.forall₂_iff_zip.mp hsame
    refine List.forall₂_iff_zip.mpr ⟨hlength, fun {c e} hce => ?_⟩
    obtain ⟨hc, he⟩ := List.of_mem_zip hce
    exact h e he c (List.mem_of_mem_filter (hperm.mem_iff.mp hc)) (hzip hce)
  rw [Tree.prune, Tree.pruneAll_eq]
  refine .directory (hperm.map (Tree.prune out)).symm ?_
  rwa [List.forall₂_map_left_iff, List.forall₂_map_right_iff]

variable [DecidableEq δ]

/-- The scan of a copy finds all but the names that it passes over. -/
theorem IsCopy.rearranged (h : IsCopy s ancestors target t) (ht : t.Distinct)
    (hnests : ∀ on ∈ target, NestsAtMost s n ⟨ancestors, on⟩)
    (ha : EntryEndsIn s extra m ancestors ⟨t.name, target⟩ a) :
    (t.prune (isIgnored extra)).Rearranged a := by
  induction h generalizing m n a with
  | file =>
    obtain rfl : a = .leaf _ := ha
    exact .file
  | @directory ancestors way name d cs entries hnew hlist hnames hbelow ih =>
    have hends : EndsIn s extra m ⟨ancestors, way⟩ name a := ha
    have hnests := hnests way rfl
    obtain _ | n := n
    · exact hnests.elim
    obtain ⟨-, hcs, hdistinct⟩ := Tree.namedBy_directory.mp ht
    have hshown : shown s extra ⟨ancestors, way⟩ = Scan.visible extra entries :=
      Scan.shown_of_listed (Scan.arrive_eq_listed_iff.mpr ⟨hnew, hlist⟩)
    obtain ⟨tree, rfl, htree⟩ := hends.eq_directory hnests fun entries' hlist' => by
      obtain rfl : entries = entries' := Except.ok.inj (hlist.symm.trans hlist')
      exact hnames.nodup_iff.mpr hcs
    rw [hshown]
    refine rearranged_prune_directory (perm_names_visible hnames) fun e he c hc hname => ?_
    have hmem : e ∈ shown s extra ⟨ancestors, way⟩ := hshown ▸ he
    have hentry : EntryEndsIn s extra n ((s.identity way).toList ++ ancestors) ⟨c.name, e.way⟩
        (tree e) := by
      rw [hname]
      exact (htree e hmem).1
    exact ih e (Scan.mem_visible.mp he).1 c hc hname (hdistinct c hc)
      (hnests.of_mem_shown hmem) hentry

/-! ## The comparison with a copy -/

/-- Declared paths are compliant in the scan of a copy, or missing if a name is passed over. -/
theorem IsCopy.statusAt_eq (h : IsCopy s ancestors target t) (ht : t.Distinct)
    (hnests : ∀ on ∈ target, NestsAtMost s n ⟨ancestors, on⟩)
    (ha : EntryEndsIn s extra m ancestors ⟨t.name, target⟩ a) (ns : List String) :
    statusAt (some t) (some a) ns =
      (t.resolve? ns).map fun _ => if ns.any (isIgnored extra) then .missing else .compliant := by
  have hsame : Option.Rel Tree.Rearranged (some t) (some t) := .some (.refl t)
  have hpruned : Option.Rel Tree.Rearranged (some (t.prune (isIgnored extra))) (some a) :=
    .some (h.rearranged ht hnests ha)
  have hdistinct : (t.prune (isIgnored extra)).Distinct := Tree.NamedBy.prune ht
  rw [← statusAt_prune]
  exact (statusAt_rearranged hsame hpruned (by simpa using ht) (by simpa using hdistinct) ns).symm

theorem IsCopy.counterparts {way : ω} (h : IsCopy s ancestors (some way) t) (ht : t.WellFormed)
    (hnests : NestsAtMost s n ⟨ancestors, way⟩)
    (ha : EndsIn s extra m ⟨ancestors, way⟩ t.name a) : Counterparts t a := by
  have hrearranged : (t.prune (isIgnored extra)).Rearranged a :=
    h.rearranged ht.distinct (by simpa using hnests) ha
  refine ⟨ht, Tree.NamedBy.rearranged (Tree.NamedBy.prune ht) hrearranged, h.kind_eq,
    (ha.name_kind_eq hnests).2, (ha.name_kind_eq hnests).1.symm⟩

theorem IsCopy.find?_results_eq_some_iff {way : ω} (h : IsCopy s ancestors (some way) t)
    (ht : t.WellFormed) (hnests : NestsAtMost s n ⟨ancestors, way⟩)
    (ha : EndsIn s extra m ⟨ancestors, way⟩ t.name a) {p : String} {status : Status} :
    (compareRoots t a).value.results.find? p = some status ↔
      ∃ ns, ns ≠ [] ∧ joinNames t.name ns = p ∧ (t.resolve? ns).isSome ∧
        status = if ns.any (isIgnored extra) then .missing else .compliant := by
  rw [(h.counterparts ht hnests ha).find?_results]
  refine exists_congr fun ns => and_congr_right fun _ => and_congr_right fun _ => ?_
  rw [h.statusAt_eq ht.distinct (by simpa using hnests) ha]
  cases t.resolve? ns with
  | none => simp
  | some u => simpa using eq_comm

theorem isIgnored_iff {n : String} :
    isIgnored extra n ↔ n.toList.head? = some '.' ∨ n ∈ Scan.ignoredNames ∨ n ∈ extra := by
  simp [isIgnored, or_assoc]

/-- A copy is compliant exactly if no declared name below the root is hidden or ignored. -/
theorem IsCopy.isCompliant_iff {way : ω} (h : IsCopy s ancestors (some way) t) (ht : t.WellFormed)
    (hnests : NestsAtMost s n ⟨ancestors, way⟩)
    (ha : EndsIn s extra m ⟨ancestors, way⟩ t.name a) :
    (Report.ofResults (compareRoots t a).value.results).isCompliant ↔
      ∀ ns, ns ≠ [] → (t.resolve? ns).isSome → ∀ n ∈ ns,
        ¬ (n.toList.head? = some '.' ∨ n ∈ Scan.ignoredNames ∨ n ∈ extra) := by
  have hfind : ∀ {p status}, (compareRoots t a).value.results.find? p = some status ↔ _ :=
    h.find?_results_eq_some_iff ht hnests ha
  rw [isCompliant_ofResults]
  constructor
  · intro hall ns hns hsome n hn hignored
    have hcompliant := hall _ _ (hfind.mpr ⟨ns, hns, rfl, hsome, rfl⟩)
    rw [if_pos (List.any_eq_true.mpr ⟨n, hn, isIgnored_iff.mpr hignored⟩)] at hcompliant
    cases hcompliant
  · intro hnone p status hp
    obtain ⟨ns, hns, -, hsome, rfl⟩ := hfind.mp hp
    refine if_neg fun hany => ?_
    obtain ⟨n, hn, hignored⟩ := List.any_eq_true.mp hany
    exact hnone ns hns hsome n hn (isIgnored_iff.mp hignored)

/-- The scan of a directory succeeds, and its tree is the one in which the walk ends. -/
theorem Scan.exists_scan_endsIn (s : BoundedSurroundings ω δ) (extra : List String)
    {root : Scan.Root ω} {way : ω} {name : String} (hway : root.way = .ok (some way))
    (hname : root.baseName = some name) : ∃ a, (Scan.scan s extra root).outcome = .ok a ∧
      ∃ n, EndsIn s.toSurroundings extra n ⟨[], way⟩ name a := by
  obtain ⟨a, ha⟩ := Scan.exists_endsIn (s.nestsAtMost way) extra name
  exact ⟨a, Scan.outcome_scan hway (by simpa [hname] using ha), _, ha⟩

/--
The scan of a copy of a declared tree succeeds. Compared with it, each declared path below the root
is compliant unless the scan passes over one of its names, and missing then; no path is extra or of
another kind. The copy is compliant exactly if no name below the root is hidden or ignored.
-/
theorem compareRoots_copy (s : BoundedSurroundings ω δ) (extra : List String)
    (dialect : Specification.Dialect) (text : String) (root : Scan.Root ω) {t : Tree} {way : ω}
    (ht : (Specification.parse dialect text).outcome = .ok t) (hname : root.baseName = some t.name)
    (hway : root.way = .ok (some way)) (hcopy : IsCopy s.toSurroundings [] (some way) t) :
    ∃ scanned, (Scan.scan s extra root).outcome = .ok scanned ∧
      let results := (compareRoots t scanned).value.results
      (∀ ns, ns ≠ [] → (t.resolve? ns).isSome → results.find? (joinNames t.name ns) =
        some (if ns.any (isIgnored extra) then .missing else .compliant)) ∧
      (∀ p, results.find? p ≠ some .extra ∧ results.find? p ≠ some .typeMismatch) ∧
      ((Report.ofResults results).isCompliant ↔
        ∀ ns, ns ≠ [] → (t.resolve? ns).isSome → ∀ n ∈ ns,
          ¬ (n.toList.head? = some '.' ∨ n ∈ Scan.ignoredNames ∨ n ∈ extra)) := by
  have hwell : t.WellFormed :=
    Specification.Declared.wellFormed (Specification.yields_parse dialect text t ht)
  obtain ⟨a, hscan, k, ha⟩ := Scan.exists_scan_endsIn s extra hway hname
  refine ⟨a, hscan, ?_⟩
  intro results
  have hfind : ∀ {p status}, results.find? p = some status ↔ _ :=
    hcopy.find?_results_eq_some_iff hwell (s.nestsAtMost way) ha
  refine ⟨fun ns hns hsome => hfind.mpr ⟨ns, hns, rfl, hsome, rfl⟩, fun p => ⟨?_, ?_⟩,
    hcopy.isCompliant_iff hwell (s.nestsAtMost way) ha⟩
  · intro hp
    obtain ⟨ns, -, -, -, hs⟩ := hfind.mp hp
    split at hs <;> cases hs
  · intro hp
    obtain ⟨ns, -, -, -, hs⟩ := hfind.mp hp
    split at hs <;> cases hs

def sourceFiles : FileSystem where
  root := .directory [("src", .directory
    [(".env", .file ⟨#[]⟩), ("lib", .directory [("a", .file ⟨#[]⟩)])])]
  current := []

def sourceTree : Tree :=
  .directory "src" none [.directory "lib" none [.leaf "a"], .leaf ".env"]

theorem isCopy_sourceTree :
    IsCopy sourceFiles.surroundings.toSurroundings [] (some "/src") sourceTree := by
  have hlook : sourceFiles.lookUp "/src" = .ok (.directory
      [(".env", .file ⟨#[]⟩), ("lib", .directory [("a", .file ⟨#[]⟩)])]) := rfl
  have hdeclared : Specification.Declared sourceTree := by
    simp [Specification.Declared, sourceTree, Tree.leaf, Tree.namedBy_directory,
      Specification.isEntryName]
  refine Entry.Holds.isCopy ?_ hdeclared hlook (by simp [FileSystem.Deeper])
  refine .directory (.swap ..) (by decide +kernel) fun e he c hc hname => ?_
  simp only [List.mem_cons, List.not_mem_nil, or_false] at he hc
  rcases he with rfl | rfl <;> rcases hc with rfl | rfl
  case inl.inr => exact .file
  case inr.inl =>
    refine .directory (.refl _) (by decide +kernel) fun e he c hc _ => ?_
    obtain rfl := List.mem_singleton.mp he
    obtain rfl := List.mem_singleton.mp hc
    exact .file
  all_goals exact absurd hname (by decide)

theorem compareRoots_copy_hidden :
    (Specification.parse .nested "lib:\n a:\n.env:").outcome = .ok sourceTree ∧
      (sourceFiles.scanRoot "/src").baseName = some sourceTree.name ∧
      (sourceFiles.scanRoot "/src").way = .ok (some "/src") ∧
      IsCopy sourceFiles.surroundings.toSurroundings [] (some "/src") sourceTree ∧
      ∃ scanned, (sourceFiles.scan [] "/src").outcome = .ok scanned ∧
        (compareRoots sourceTree scanned).value.results.find? "src/lib/a" = some .compliant ∧
        (compareRoots sourceTree scanned).value.results.find? "src/.env" = some .missing ∧
        ¬ (Report.ofResults (compareRoots sourceTree scanned).value.results).isCompliant := by
  have ht : (Specification.parse .nested "lib:\n a:\n.env:").outcome = .ok sourceTree := by
    decide +kernel
  have hname : (sourceFiles.scanRoot "/src").baseName = some sourceTree.name := by decide +kernel
  have hway : (sourceFiles.scanRoot "/src").way = .ok (some "/src") := by decide +kernel
  obtain ⟨scanned, hscan, hstatus, -, hcompliant⟩ := compareRoots_copy sourceFiles.surroundings []
    .nested _ (sourceFiles.scanRoot "/src") ht hname hway isCopy_sourceTree
  refine ⟨ht, hname, hway, isCopy_sourceTree, scanned, hscan,
    hstatus ["lib", "a"] (by simp) rfl, hstatus [".env"] (by simp) rfl, fun h => ?_⟩
  exact hcompliant.mp h [".env"] (by simp) rfl ".env" (by simp) (.inl rfl)

/--
A directory of the file system that holds the declared tree is such a copy. The system must accept
the path of everything in it: no name may have more than 255 bytes, and every path must have less
than 4096 (`Entry.Holds`).
-/
theorem Entry.Holds.compareRoots_scan {fs : FileSystem} {path : String}
    {entries : List (String × Entry)} {t : Tree} (h : (Entry.directory entries).Holds path t)
    (ht : Specification.Declared t) (hname : fs.baseName path = some t.name)
    (hlook : fs.lookUp path = .ok (.directory entries)) (extra : List String) :
    ∃ scanned, (fs.scan extra path).outcome = .ok scanned ∧
      let results := (compareRoots t scanned).value.results
      (∀ p status, results.find? p = some status ↔
        ∃ ns, ns ≠ [] ∧ joinNames t.name ns = p ∧ (t.resolve? ns).isSome ∧
          status = if ns.any (isIgnored extra) then .missing else .compliant) ∧
      ((Report.ofResults results).isCompliant ↔
        ∀ ns, ns ≠ [] → (t.resolve? ns).isSome → ∀ n ∈ ns,
          ¬ (n.toList.head? = some '.' ∨ n ∈ Scan.ignoredNames ∨ n ∈ extra)) := by
  have hcopy : IsCopy fs.surroundings.toSurroundings [] (some path) t :=
    h.isCopy ht hlook (by simp [FileSystem.Deeper])
  have hway : (fs.scanRoot path).way = .ok (some path) := FileSystem.way_scanRoot_of_lookUp hlook
  obtain ⟨a, hscan, k, ha⟩ := Scan.exists_scan_endsIn fs.surroundings extra hway hname
  have hnests := fs.surroundings.nestsAtMost path
  exact ⟨a, hscan, fun p status => hcopy.find?_results_eq_some_iff ht.wellFormed hnests ha,
    hcopy.isCompliant_iff ht.wellFormed hnests ha⟩

end LayoutCheck
