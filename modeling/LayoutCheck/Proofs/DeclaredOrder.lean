import LayoutCheck.Proofs.Rearrangement
import LayoutCheck.Proofs.StartingPoint

/-!
The order of declared entries changes no comparison, whatever was observed.

An observed name may have slashes in it, so that an extra entry has the path of a declared one and a
path is recorded twice. Then the first status counts (`firstStatus`). What is recorded for a
declared entry lies at its path or below it, where nothing is recorded for its siblings
(`firstStatus_findingsAmong`), so the order of siblings does not decide which status is the first
one (`firstStatus_findingsBelow_rearranged`).
-/

namespace LayoutCheck

open LayoutCheck.Tree (Rearranged)

variable {root p m n : String} {s : Status} {fs : List Finding} {actual : Option Tree}
  {cs ds : List Tree}

/-! ## Paths of siblings -/

/-- A path begins with the names of the one that it is or is below. -/
theorem namesOf_prefix {above : String} (h : p = above ∨ isBelow p above) :
    namesOf above <+: namesOf p := by
  rcases h with rfl | h
  · exact List.prefix_refl _
  · obtain ⟨rest, h⟩ := (isBelow_iff p above).mp h
    have hpath : p = above ++ "/" ++ String.ofList rest := by
      apply String.toList_inj.mp
      simp [h]
    rw [hpath, namesOf_append_slash]
    exact List.prefix_append _ _

theorem namesOf_joinPath (hr : root ≠ "") (hn : IsName n) :
    namesOf (joinPath root n) = namesOf root ++ [n] := by
  have hname : namesOf (joinNames n []) = [n] := namesOf_joinNames hn (List.forall_mem_nil _)
  rw [joinNames_nil] at hname
  rw [joinPath_of_ne hr, namesOf_append_slash, hname]

/-- No path lies at or below the paths of two siblings. -/
theorem name_eq_of_eq_or_isBelow (hr : root ≠ "") (hm : IsName m) (hn : IsName n)
    (hpm : p = joinPath root m ∨ isBelow p (joinPath root m))
    (hpn : p = joinPath root n ∨ isBelow p (joinPath root n)) : m = n := by
  have hpm := namesOf_prefix hpm
  have hpn := namesOf_prefix hpn
  rw [namesOf_joinPath hr hm] at hpm
  rw [namesOf_joinPath hr hn] at hpn
  have hlength : (namesOf root ++ [m]).length = (namesOf root ++ [n]).length := by simp
  have heq := (List.prefix_of_prefix_length_le hpm hpn (Nat.le_of_eq hlength)).eq_of_length hlength
  simpa using heq

/-! ## The first status of a path -/

def firstStatus (root : String) (fs : List Finding) (p : String) : Option Status :=
  Results.lookup p (fs.map (Finding.entry root))

theorem firstStatus_append (root : String) (fs gs : List Finding) (p : String) :
    firstStatus root (fs ++ gs) p = (firstStatus root fs p).or (firstStatus root gs p) := by
  rw [firstStatus, List.map_append, Results.lookup_append]
  rfl

theorem firstStatus_under (root n : String) (fs : List Finding) (p : String) :
    firstStatus root (fs.map (.under n)) p = firstStatus (joinPath root n) fs p := by
  rw [firstStatus, firstStatus, List.map_map]
  rfl

/-- What is found below a root has a path there. -/
theorem eq_or_isBelow_of_firstStatus (hr : root ≠ "") (h : firstStatus root fs p = some s) :
    p = root ∨ isBelow p root := by
  obtain ⟨e, he, _⟩ := Option.map_eq_some_iff.mp h
  obtain ⟨⟨ns, t⟩, _, rfl⟩ := List.mem_map.mp (List.mem_of_find?_eq_some he)
  have hp := List.find?_some he
  obtain rfl : joinNames root ns = p := of_decide_eq_true hp
  rw [joinNames_eq_intercalate hr]
  cases ns with
  | nil => exact .inl (by simp)
  | cons n ns =>
    refine .inr ((isBelow_iff _ _).mpr ⟨("/".intercalate (n :: ns)).toList, ?_⟩)
    simp [String.intercalate_cons_cons]

/-- A path has its first status from the one declared entry that it is at or below. -/
theorem firstStatus_findingsAmong (hr : root ≠ "") (hcs : (cs.map Tree.name).Nodup)
    (hnames : ∀ c ∈ cs, IsName c.name) :
    firstStatus root (findingsAmong actual cs) p = some s ↔ ∃ c ∈ cs,
      firstStatus (joinPath root c.name) (findings (observed? actual c.name) c) p = some s := by
  induction cs with
  | nil => simp [findingsAmong, firstStatus, Results.lookup]
  | cons c cs ih =>
    obtain ⟨hc, hcs⟩ := List.nodup_cons.mp hcs
    obtain ⟨hname, hnames⟩ := List.forall_mem_cons.mp hnames
    rw [findingsAmong_cons, firstStatus_append, firstStatus_under, Option.or_eq_some_iff,
      ih hcs hnames, List.exists_mem_cons_iff]
    refine or_congr_right ⟨And.right, fun hrest => ⟨?_, hrest⟩⟩
    -- the path lies at or below a sibling, so not at or below the first entry
    obtain ⟨d, hd, hrest⟩ := hrest
    have hjoin : ∀ k, joinPath root k ≠ "" := by
      intro k
      simp [joinPath_of_ne hr, String.append_eq_empty_iff]
    rw [Option.eq_none_iff_forall_ne_some]
    intro t ht
    have heq := name_eq_of_eq_or_isBelow hr hname (hnames d hd)
      (eq_or_isBelow_of_firstStatus (hjoin _) ht) (eq_or_isBelow_of_firstStatus (hjoin _) hrest)
    exact hc (heq ▸ List.mem_map_of_mem hd)

/-! ## Rearranged declared trees -/

theorem extraFindings_congr (h : (cs.map Tree.name).Perm (ds.map Tree.name))
    (actual : Option Tree) : extraFindings cs actual = extraFindings ds actual := by
  have hany : ∀ n, cs.any (·.name = n) = ds.any (·.name = n) := by
    intro n
    have hmem := h.mem_iff (a := n)
    rw [List.mem_map, List.mem_map] at hmem
    rw [Bool.eq_iff_iff]
    simpa using hmem
  cases actual with
  | none => rfl
  | some a => simp only [extraFindings, hany]

/-- Among distinct names the order of the declared entries does not matter. -/
theorem firstStatus_findingsAmong_of_perm (hr : root ≠ "") (hcs : (cs.map Tree.name).Nodup)
    (hnames : ∀ c ∈ cs, IsName c.name) (h : cs.Perm ds) (actual : Option Tree) (p : String) :
    firstStatus root (findingsAmong actual cs) p =
      firstStatus root (findingsAmong actual ds) p := by
  have hds : (ds.map Tree.name).Nodup := (h.map Tree.name).nodup_iff.mp hcs
  have hvalid : ∀ d ∈ ds, IsName d.name := fun d hd => hnames d (h.mem_iff.mpr hd)
  apply Option.ext
  intro s
  rw [firstStatus_findingsAmong hr hcs hnames, firstStatus_findingsAmong hr hds hvalid]
  simp only [h.mem_iff]

theorem firstStatus_findingsAmong_of_forall₂ {root : String} {ms os : List Tree}
    (hall : List.Forall₂ Rearranged ms os)
    (h : ∀ m ∈ ms, ∀ o, m.Rearranged o → ∀ root, root ≠ "" → ∀ actual p,
      firstStatus root (findings actual m) p = firstStatus root (findings actual o) p)
    (hr : root ≠ "") (actual : Option Tree) (p : String) :
    firstStatus root (findingsAmong actual ms) p =
      firstStatus root (findingsAmong actual os) p := by
  induction hall with
  | nil => rfl
  | @cons m o ms os hmo _ ih =>
    obtain ⟨hm, hms⟩ := List.forall_mem_cons.mp h
    have hjoin : joinPath root m.name ≠ "" := by
      simp [joinPath_of_ne hr, String.append_eq_empty_iff]
    rw [findingsAmong_cons, findingsAmong_cons, firstStatus_append, firstStatus_append,
      firstStatus_under, firstStatus_under, ih hms, ← hmo.name_eq, hm o hmo _ hjoin]

theorem verdict_of_kind_eq {e f : Tree} (hk : e.kind = f.kind) (actual : Option Tree) :
    verdict e actual = verdict f actual := by
  cases actual with
  | none => rfl
  | some a => rw [verdict, verdict, hk]

theorem firstStatus_findings_congr {e f : Tree} (hk : e.kind = f.kind)
    (hbelow : firstStatus root (findingsBelow actual e) p =
      firstStatus root (findingsBelow actual f) p) :
    firstStatus root (findings actual e) p = firstStatus root (findings actual f) p := by
  rw [findings, findings, firstStatus_append, firstStatus_append, hbelow,
    verdict_of_kind_eq hk actual]

/-- What is recorded first for each path does not depend on the order of declared entries. -/
theorem firstStatus_findingsBelow_rearranged {e f : Tree} (he : e.WellFormed)
    (hef : e.Rearranged f) (hr : root ≠ "") (actual : Option Tree) (p : String) :
    firstStatus root (findingsBelow actual e) p = firstStatus root (findingsBelow actual f) p := by
  induction e using Tree.induction generalizing f root actual p with
  | file n d =>
    cases hef
    rfl
  | directory n d cs ih =>
    obtain ⟨_, hcs, hvalid⟩ := Tree.namedBy_directory.mp he
    cases hef with
    | @directory _ _ b _ ms os hperm hall =>
      have hnames : ∀ c ∈ cs, IsName c.name := fun c hc => (hvalid c hc).here.1
      have hms : ∀ m ∈ ms, ∀ o, m.Rearranged o → ∀ root, root ≠ "" → ∀ actual p,
          firstStatus root (findings actual m) p = firstStatus root (findings actual o) p := by
        intro m hm o hmo root hr actual p
        have hc : m ∈ cs := hperm.mem_iff.mpr hm
        exact firstStatus_findings_congr hmo.kind_eq (ih m hc (hvalid m hc) hmo hr actual p)
      have hextra : extraFindings cs actual = extraFindings os actual := by
        refine extraFindings_congr ?_ actual
        rw [← Tree.map_name_of_forall₂ hall]
        exact hperm.map Tree.name
      have hkind : (Tree.directory n d cs).kind = (Tree.directory n b os).kind := rfl
      rw [findingsBelow, findingsBelow, verdict_of_kind_eq hkind]
      split
      · rfl
      · rw [firstStatus_append, firstStatus_append, hextra,
          firstStatus_findingsAmong_of_perm hr hcs hnames hperm,
          firstStatus_findingsAmong_of_forall₂ hall hms hr]

/-- Rearranged declared trees that are compared with one observed tree have the same results. -/
theorem Alignment.results_of_declared_rearranged {l m : Alignment} (hl : l.declared.WellFormed)
    (hmatched : l.matched = m.matched) (hdeclared : l.declared.Rearranged m.declared)
    (hactual : l.actual = m.actual) : l.results = m.results := by
  have hroot : l.recordsRoot = m.recordsRoot := by
    rw [recordsRoot, recordsRoot, hmatched, hdeclared.kind_eq, hactual]
  have hfirst : ∀ p, firstStatus l.declared.name l.findings p =
      firstStatus m.declared.name m.findings p := by
    intro p
    have hbelow := firstStatus_findingsBelow_rearranged hl hdeclared hl.isName.1 (some l.actual) p
    rw [findings, findings, ← hroot, ← hactual, ← hdeclared.name_eq]
    split
    · exact firstStatus_findings_congr hdeclared.kind_eq hbelow
    · exact hbelow
  refine Results.ext_find? fun p => ?_
  rw [results, results, Results.find?_follow, Results.find?_follow, recordings_steps,
    recordings_steps]
  exact congrArg (Option.or _) (hfirst p)

/-- Rearranged declared trees are compared alike with any tree, whatever the names in that. -/
theorem compareRoots_eq_of_declared_rearranged {e f : Tree} (he : e.WellFormed)
    (hef : e.Rearranged f) (a : Tree) : (compareRoots e a).value = (compareRoots f a).value := by
  have hobserved : Option.Rel Eq (a.directoryChild? e.name) (a.directoryChild? e.name) := by
    cases a.directoryChild? e.name with
    | none => exact .none
    | some c => exact .some rfl
  obtain ⟨hmatched, hdeclared, hactual⟩ := alignRoots_rel he.distinct hef rfl rfl hobserved
  have hwell : (alignRoots e a).declared.WellFormed :=
    (linesUp_alignRoots e a).wellFormed_declared he
  have hresults := Alignment.results_of_declared_rearranged hwell hmatched hdeclared hactual
  calc (compareRoots e a).value
      = ⟨(alignRoots e a).matched, (alignRoots e a).results⟩ := rfl
    _ = ⟨(alignRoots f a).matched, (alignRoots f a).results⟩ := by rw [hmatched, hresults]
    _ = (compareRoots f a).value := rfl

end LayoutCheck
