import LayoutCheck.Proofs.Alignment
import LayoutCheck.Report
import Mathlib.Algebra.BigOperators.Group.List.Basic
import Mathlib.Algebra.GroupWithZero.Nat

/-!
Every entry of either tree is accounted for once.

A status accounts for the entry at its path; a mismatch and an extra entry, below which nothing is
looked at, also for everything below it. Summed over the findings, the shares of the declared tree
are all its entries (`sum_declaredShare`), those of the observed tree all of its entries
(`sum_observedShare`). The counts of a report are such sums (`sum_findings_eq_sum_pathsWith`).
-/

namespace LayoutCheck

namespace Status

/-- How many declared entries a status accounts for where `below` of them are below the path. -/
def declaredShare : Status → (below : Nat) → Nat
  | compliant, _ | missing, _ => 1
  | typeMismatch, below => 1 + below
  | extra, _ => 0

/-- How many observed entries a status accounts for where `below` of them are below the path. -/
def observedShare : Status → (below : Nat) → Nat
  | compliant, _ => 1
  | missing, _ => 0
  | typeMismatch, below | extra, below => 1 + below

end Status

theorem Tree.countAll_eq_sum (cs : List Tree) :
    Tree.countAll cs = (cs.map (fun c => 1 + c.descendantCount)).sum := by
  induction cs with
  | nil => rfl
  | cons c cs ih => simp [Tree.countAll, ih]

theorem Tree.descendantCount_eq_sum (t : Tree) :
    t.descendantCount = (t.children.map (fun c => 1 + c.descendantCount)).sum := by
  cases t with
  | file => rfl
  | directory => exact Tree.countAll_eq_sum _

def countBelow (t : Option Tree) : Nat := (t.map Tree.descendantCount).getD 0

@[simp] theorem countBelow_some (t : Tree) : countBelow (some t) = t.descendantCount := rfl

/-- An entry that may be absent, with everything below it. -/
def countWith (t : Option Tree) : Nat := (t.map (fun t => 1 + t.descendantCount)).getD 0

@[simp] theorem countWith_none : countWith none = 0 := rfl

@[simp] theorem countWith_some (t : Tree) : countWith (some t) = 1 + t.descendantCount := rfl

def declaredShare (declared : Tree) (f : Finding) : Nat :=
  f.status.declaredShare (countBelow (declared.resolve? f.names))

def observedShare (actual : Option Tree) (f : Finding) : Nat :=
  f.status.observedShare (countBelow (actual.bind (·.resolve? f.names)))

/-! ## Sums over the findings -/

theorem sum_findings (w : Finding → Nat) (actual : Option Tree) (t : Tree) :
    ((findings actual t).map w).sum =
      ((findingsBelow actual t).map w).sum + w ⟨[], verdict t actual⟩ := by
  simp [findings]

theorem sum_findingsAmong (w : Finding → Nat) (actual : Option Tree) (cs : List Tree) :
    ((findingsAmong actual cs).map w).sum =
      (cs.map (fun c => ((findings (observed? actual c.name) c).map
        (fun f => w (f.under c.name))).sum)).sum := by
  induction cs with
  | nil => simp [findingsAmong]
  | cons c cs ih =>
    rw [findingsAmong_cons, List.map_append, List.sum_append_nat, ih]
    simp [Function.comp_def]

/-- The findings account for the declared tree. -/
theorem sum_declaredShare {t : Tree} (h : t.Distinct) (actual : Option Tree) :
    ((findings actual t).map (declaredShare t)).sum = 1 + t.descendantCount := by
  induction t using Tree.induction generalizing actual with
  | file n d =>
    have hroot : declaredShare (.file n d) ⟨[], verdict (.file n d) actual⟩ = 1 := by
      cases actual with
      | none => rfl
      | some a => cases a <;> rfl
    rw [sum_findings, hroot]
    rfl
  | directory n d cs ih =>
    obtain ⟨_, _, hcs⟩ := Tree.namedBy_directory.mp h
    have hamong : ((findingsAmong actual cs).map (declaredShare (.directory n d cs))).sum =
        (Tree.directory n d cs).descendantCount := by
      rw [sum_findingsAmong, Tree.descendantCount_eq_sum]
      refine congrArg List.sum (List.map_congr_left fun c hc => ?_)
      have hchild : (Tree.directory n d cs).child? c.name = some c :=
        Tree.child?_of_mem h.nodup hc
      rw [← ih c hc (hcs c hc) (observed? actual c.name)]
      refine congrArg List.sum (List.map_congr_left fun f _ => ?_)
      simp [declaredShare, Finding.under, Tree.resolve?_cons, hchild]
    have hextra : ((extraFindings cs actual).map (declaredShare (.directory n d cs))).sum = 0 := by
      refine List.sum_eq_zero_iff_forall_eq_nat.mpr fun w hw => ?_
      obtain ⟨f, hf, rfl⟩ := List.mem_map.mp hw
      obtain ⟨m, rfl, _⟩ := mem_extraFindings.mp hf
      rfl
    rw [sum_findings, findingsBelow]
    cases hv : verdict (.directory n d cs) actual with
    | typeMismatch => simp [declaredShare, Status.declaredShare]
    | extra => exact absurd hv (verdict_ne_extra _ _)
    | compliant | missing =>
      rw [if_neg (by decide), List.map_append, List.sum_append_nat, hamong, hextra]
      simp only [declaredShare, Status.declaredShare]
      omega

/-! ## The observed side -/

theorem sum_countWith_filterMap (g : String → Option Tree) (ns : List String) :
    (ns.map (fun n => countWith (g n))).sum =
      ((ns.filterMap g).map (fun o => 1 + o.descendantCount)).sum := by
  induction ns with
  | nil => rfl
  | cons n ns ih => cases hn : g n <;> simp [hn, ih]

/-- The entries that distinct names lead to are the entries of those names. -/
theorem perm_filterMap_child? {a : Tree} (h : a.Distinct) {ns : List String} (hns : ns.Nodup) :
    (ns.filterMap a.child?).Perm (a.children.filter (fun o => ns.contains o.name)) := by
  have hleft : (ns.filterMap a.child?).Nodup := by
    refine hns.filterMap fun m n o hm hn => ?_
    rw [← Tree.name_of_child? hm, ← Tree.name_of_child? hn]
  have hright : (a.children.filter (fun o => ns.contains o.name)).Nodup :=
    (List.Nodup.of_map _ h.nodup).filter _
  rw [List.perm_ext_iff_of_nodup hleft hright]
  intro o
  simp only [List.mem_filterMap, List.mem_filter, List.contains_iff_mem]
  constructor
  · rintro ⟨n, hn, ho⟩
    exact ⟨Tree.mem_children_of_child? ho, Tree.name_of_child? ho ▸ hn⟩
  · rintro ⟨ho, hn⟩
    exact ⟨o.name, hn, Tree.child?_of_mem h.nodup ho⟩

/-- The declared names and the extra entries make up an observed directory. -/
theorem sum_countWith_declared {a : Tree} (h : a.Distinct) {cs : List Tree}
    (hcs : (cs.map Tree.name).Nodup) :
    (cs.map (fun c => countWith (a.child? c.name))).sum +
        ((extraFindings cs (some a)).map (observedShare (some a))).sum = a.descendantCount := by
  have hdeclared : (cs.map (fun c => countWith (a.child? c.name))).sum =
      ((a.children.filter (fun o => (cs.map Tree.name).contains o.name)).map
        (fun o => 1 + o.descendantCount)).sum := by
    rw [← ((perm_filterMap_child? h hcs).map _).sum_nat, ← sum_countWith_filterMap, List.map_map]
    rfl
  have hextra : ((extraFindings cs (some a)).map (observedShare (some a))).sum =
      ((a.children.filter (fun o => !(cs.map Tree.name).contains o.name)).map
        (fun o => 1 + o.descendantCount)).sum := by
    have hfilter : a.children.filter (fun o => !cs.any (fun c => decide (c.name = o.name))) =
        a.children.filter (fun o => !(cs.map Tree.name).contains o.name) := by
      refine List.filter_congr fun o _ => ?_
      rw [Bool.eq_iff_iff]
      simp
    rw [extraFindings, Tree.childNames, List.filter_map, List.map_map, List.map_map,
      ← hfilter]
    refine congrArg List.sum (List.map_congr_left fun o ho => ?_)
    have hchild : a.child? o.name = some o := Tree.child?_of_mem h.nodup (List.mem_filter.mp ho).1
    simp [observedShare, Status.observedShare, Tree.resolve?_cons, hchild]
  rw [hdeclared, hextra, ← List.sum_append_nat, ← List.map_append,
    ((List.filter_append_perm _ _).map _).sum_nat, Tree.descendantCount_eq_sum]

theorem observedShare_under (actual : Option Tree) (n : String) (f : Finding) :
    observedShare actual (f.under n) = observedShare (observed? actual n) f := by
  cases actual <;> rfl

/-- The findings account for the observed tree. -/
theorem sum_observedShare {t : Tree} (h : t.Distinct) {actual : Option Tree}
    (ha : ∀ a ∈ actual, a.Distinct) :
    ((findings actual t).map (observedShare actual)).sum = countWith actual := by
  induction t using Tree.induction generalizing actual with
  | file n d =>
    rw [sum_findings]
    cases actual with
    | none => rfl
    | some a =>
      cases a with
      | file => rfl
      | directory => exact Nat.zero_add _
  | directory n d cs ih =>
    obtain ⟨_, hnames, hcs⟩ := Tree.namedBy_directory.mp h
    have hamong : ((findingsAmong actual cs).map (observedShare actual)).sum =
        (cs.map (fun c => countWith (observed? actual c.name))).sum := by
      rw [sum_findingsAmong]
      refine congrArg List.sum (List.map_congr_left fun c hc => ?_)
      simp only [observedShare_under]
      exact ih c hc (hcs c hc) (all_of_observed? ha c.name)
    rw [sum_findings]
    cases actual with
    | none =>
      simp [findingsBelow, verdict, extraFindings, hamong, observedShare, Status.observedShare]
    | some a =>
      cases a with
      | file => exact Nat.zero_add _
      | directory m b os =>
        have hsum := sum_countWith_declared (ha _ rfl) hnames
        have hv : verdict (.directory n d cs) (some (.directory m b os)) = .compliant := rfl
        rw [findingsBelow, hv, if_neg (by decide), List.map_append, List.sum_append_nat, hamong]
        simp only [observed?_some, hsum, observedShare, Status.observedShare, countWith_some]
        omega

/-! ## Paths -/

/-- The entry that a path leads to, if its first name is that of the root. -/
def Tree.entryAt? (t : Tree) (root path : String) : Option Tree :=
  match namesOf path with
  | [] => none
  | n :: ns => if n = root then t.resolve? ns else none

theorem Tree.entryAt?_joinNames (t : Tree) {root : String} (hr : IsName root) {ns : List String}
    (hns : ∀ n ∈ ns, IsName n) : t.entryAt? root (joinNames root ns) = t.resolve? ns := by
  simp [entryAt?, namesOf_joinNames hr hns]

/-- The paths below the root that lead to an entry join the names that do. -/
theorem Tree.entryAt?_eq_some_iff {t u : Tree} (h : t.WellFormed) {path : String} :
    t.entryAt? t.name path = some u ↔
      ∃ ns, joinNames t.name ns = path ∧ t.resolve? ns = some u := by
  constructor
  · intro hu
    unfold entryAt? at hu
    split at hu
    · simp at hu
    · rename_i n ns hpath
      obtain ⟨rfl, hresolved⟩ := Option.ite_none_right_eq_some.mp hu
      exact ⟨ns, joinNames_of_namesOf h.isName.1 hpath, hresolved⟩
  · rintro ⟨ns, rfl, hu⟩
    rw [entryAt?_joinNames t h.isName (NamedBy.valid_of_resolve? h hu), hu]

theorem sum_map_eq_sum_by_status (w : Finding → Nat) (fs : List Finding) :
    (fs.map w).sum = ((fs.filter (·.status = .compliant)).map w).sum +
      ((fs.filter (·.status = .missing)).map w).sum + ((fs.filter (·.status = .extra)).map w).sum +
      ((fs.filter (·.status = .typeMismatch)).map w).sum := by
  induction fs with
  | nil => rfl
  | cons f fs ih => cases hf : f.status <;> simp [hf, ih] <;> omega

namespace Alignment

variable {l : Alignment}

theorem kind_eq_of_not_recordsRoot (h : l.recordsRoot = false) :
    l.declared.kind = l.actual.kind := by
  unfold recordsRoot at h
  split at h
  · simp at h
  · simpa using h

theorem isSome_find?_root (h : l.WellFormed) :
    (l.results.find? l.declared.name).isSome = l.recordsRoot := by
  rw [Bool.eq_iff_iff, Option.isSome_iff_exists]
  simp [find?_results_root h]

/-- The findings account for the declared tree, and for its root if that is recorded. -/
theorem sum_declaredShare_findings (h : l.WellFormed) :
    (l.findings.map (declaredShare l.declared)).sum =
      l.declared.descendantCount + (if l.recordsRoot then 1 else 0) := by
  have hall := sum_declaredShare h.declared.distinct (some l.actual)
  cases hr : l.recordsRoot with
  | true =>
    simp only [findings, hr, if_true, hall]
    omega
  | false =>
    have hv : verdict l.declared (some l.actual) = .compliant := by
      simp [verdict, kind_eq_of_not_recordsRoot hr]
    rw [sum_findings, hv] at hall
    simp only [declaredShare, Status.declaredShare] at hall
    simp only [findings, hr, Bool.false_eq_true, if_false]
    omega

theorem sum_observedShare_findings (h : l.WellFormed) :
    (l.findings.map (observedShare (some l.actual))).sum =
      l.actual.descendantCount + (if l.recordsRoot then 1 else 0) := by
  have hactual : ∀ a ∈ some l.actual, a.Distinct := by simpa using h.actual.distinct
  have hall := sum_observedShare h.declared.distinct hactual
  cases hr : l.recordsRoot with
  | true =>
    simp only [findings, hr, if_true, hall, countWith_some]
    omega
  | false =>
    have hv : verdict l.declared (some l.actual) = .compliant := by
      simp [verdict, kind_eq_of_not_recordsRoot hr]
    rw [sum_findings, hv, countWith_some] at hall
    simp only [observedShare, Status.observedShare] at hall
    simp only [findings, hr, Bool.false_eq_true, if_false]
    omega

theorem perm_pathsWith_results (h : l.WellFormed) (s : Status) :
    (l.results.pathsWith s).Perm
      ((l.findings.filter (·.status = s)).map (fun f => joinNames l.declared.name f.names)) := by
  have hperm := Results.perm_pathsWith_follow_empty (nodup_recordings_steps h) s
  rw [recordings_steps, List.filter_map, List.map_map] at hperm
  exact hperm

/-- The shares of the paths of a status are those of the findings of that status. -/
theorem sum_pathsWith_results (h : l.WellFormed) (t : Tree) (share : Status → Nat → Nat)
    (s : Status) :
    ((l.results.pathsWith s).map
        (fun p => share s (countBelow (t.entryAt? l.declared.name p)))).sum =
      ((l.findings.filter (·.status = s)).map
        (fun f => share f.status (countBelow (t.resolve? f.names)))).sum := by
  rw [((perm_pathsWith_results h s).map _).sum_nat, List.map_map]
  refine congrArg List.sum (List.map_congr_left fun f hf => ?_)
  obtain ⟨hmem, hs⟩ := List.mem_filter.mp hf
  obtain rfl : f.status = s := by simpa using hs
  simp [t.entryAt?_joinNames h.declared.isName (isName_of_mem_findings h hmem)]

/-- The shares of all findings, status by status. -/
theorem sum_findings_eq_sum_pathsWith (h : l.WellFormed) (t : Tree) (share : Status → Nat → Nat) :
    let sharesOf := fun s => ((l.results.pathsWith s).map
      (fun p => share s (countBelow (t.entryAt? l.declared.name p)))).sum
    (l.findings.map (fun f => share f.status (countBelow (t.resolve? f.names)))).sum =
      sharesOf .compliant + sharesOf .missing + sharesOf .extra + sharesOf .typeMismatch := by
  simp only [sum_pathsWith_results h]
  exact sum_map_eq_sum_by_status _ _

/-- A mismatch has an entry in both trees, an extra path one in the observed tree. -/
theorem isSome_entryAt? (h : l.WellFormed) {p : String} {s : Status}
    (hp : l.results.find? p = some s) :
    (s ≠ .extra → (l.declared.entryAt? l.declared.name p).isSome) ∧
      (s ≠ .missing → (l.actual.entryAt? l.declared.name p).isSome) := by
  obtain ⟨ns, hns, rfl⟩ := exists_joinNames_of_find?_results h hp
  obtain ⟨_, hs⟩ := (find?_results_joinNames h hns).mp hp
  rw [Tree.entryAt?_joinNames _ h.declared.isName hns,
    Tree.entryAt?_joinNames _ h.declared.isName hns]
  obtain ⟨hdeclared, hactual⟩ := isSome_resolve?_of_statusAt hs
  exact ⟨hdeclared.mpr, hactual.mpr⟩

/-- The declared side: compliant, missing and mismatched paths, and what is below the latter. -/
theorem declared_conservation (h : l.WellFormed) :
    (Report.ofResults l.results).counts.expectedTotal +
        ((Report.ofResults l.results).typeMismatch.map
          (fun p => countBelow (l.declared.entryAt? l.declared.name p))).sum =
      l.declared.descendantCount +
        (if (l.results.find? l.declared.name).isSome then 1 else 0) := by
  have hsum := (sum_findings_eq_sum_pathsWith h l.declared Status.declaredShare).symm.trans
    (sum_declaredShare_findings h)
  simp only [Status.declaredShare, List.sum_map_add, List.map_const', List.sum_replicate_nat,
    Nat.mul_one, Nat.mul_zero] at hsum
  rw [isSome_find?_root h, ← hsum]
  simp only [Report.ofResults, Report.counts, Counts.expectedTotal]
  omega

/-- The observed side: compliant, mismatched and extra paths, and what is below the latter two. -/
theorem observed_conservation (h : l.WellFormed) :
    (Report.ofResults l.results).counts.compliant +
        (Report.ofResults l.results).counts.typeMismatch +
        ((Report.ofResults l.results).typeMismatch.map
          (fun p => countBelow (l.actual.entryAt? l.declared.name p))).sum +
        ((Report.ofResults l.results).extra.map
          (fun p => 1 + countBelow (l.actual.entryAt? l.declared.name p))).sum =
      l.actual.descendantCount +
        (if (l.results.find? l.declared.name).isSome then 1 else 0) := by
  have hsum := (sum_findings_eq_sum_pathsWith h l.actual Status.observedShare).symm.trans
    (sum_observedShare_findings h)
  simp only [Status.observedShare, List.sum_map_add, List.map_const', List.sum_replicate_nat,
    Nat.mul_one, Nat.mul_zero] at hsum
  rw [isSome_find?_root h, ← hsum]
  simp only [Report.ofResults, Report.counts, List.sum_map_add, List.map_const',
    List.sum_replicate_nat, Nat.mul_one]
  omega

end Alignment

/--
Each entry of the two trees is counted once: a declared entry as compliant, missing, mismatched or
below a mismatch, an observed one as compliant, mismatched, extra or below one of the latter two.
-/
theorem conservation_compareRoots {e a : Tree} (he : e.WellFormed) (ha : a.WellFormed) :
    let E := (alignRoots e a).declared
    let A := (alignRoots e a).actual
    let results := (compareRoots e a).value.results
    let report := Report.ofResults results
    let root := if (results.find? E.name).isSome then 1 else 0
    LinesUp e a ⟨(compareRoots e a).value.matched, E, A⟩ ∧
    report.counts.expectedTotal +
        (report.typeMismatch.map (fun p => countBelow (E.entryAt? E.name p))).sum =
      E.descendantCount + root ∧
    report.counts.compliant + report.counts.typeMismatch +
        (report.typeMismatch.map (fun p => countBelow (A.entryAt? E.name p))).sum +
        (report.extra.map (fun p => 1 + countBelow (A.entryAt? E.name p))).sum =
      A.descendantCount + root ∧
    (∀ p ∈ report.typeMismatch,
      (E.entryAt? E.name p).isSome ∧ (A.entryAt? E.name p).isSome) ∧
    ∀ p ∈ report.extra, (A.entryAt? E.name p).isSome := by
  have hl : (alignRoots e a).WellFormed := wellFormed_alignRoots he ha
  have hentry := fun p s => Alignment.isSome_entryAt? (p := p) (s := s) hl
  refine ⟨linesUp_alignRoots e a, Alignment.declared_conservation hl,
    Alignment.observed_conservation hl, ?_, ?_⟩
  · intro p hp
    have hfind := Results.mem_pathsWith.mp hp
    exact ⟨(hentry p _ hfind).1 (by decide), (hentry p _ hfind).2 (by decide)⟩
  · intro p hp
    exact (hentry p _ (Results.mem_pathsWith.mp hp)).2 (by decide)

theorem conservation_compareRoots_mismatch :
    let e := Tree.branch "src" [.branch "lib" [.leaf "mod.rs", .leaf "io.rs"], .leaf "main.rs"]
    let a := Tree.branch "src" [.leaf "lib", .branch "tests" [.leaf "all.rs"], .leaf "main.rs"]
    let report := Report.ofResults (compareRoots e a).value.results
    e.WellFormed ∧ a.WellFormed ∧ report.typeMismatch = ["src/lib"] ∧
      report.extra = ["src/tests"] ∧ report.counts.expectedTotal = 2 ∧
      report.counts.compliant + report.counts.typeMismatch = 2 := by
  intro e a report
  have he : e.WellFormed := by decide
  have ha : a.WellFormed := by decide
  have hmismatch : report.typeMismatch = ["src/lib"] := by decide
  have hextra : report.extra = ["src/tests"] := by decide
  have hroot : (compareRoots e a).value.results.find? "src" = none := by decide
  have hdeclared : countBelow ((alignRoots e a).declared.entryAt? "src" "src/lib") = 2 := by
    decide +kernel
  have hlib : countBelow ((alignRoots e a).actual.entryAt? "src" "src/lib") = 0 := by
    decide +kernel
  have htests : countBelow ((alignRoots e a).actual.entryAt? "src" "src/tests") = 1 := by
    decide +kernel
  have hsizes : (alignRoots e a).declared.descendantCount = 4 ∧
      (alignRoots e a).actual.descendantCount = 4 := by decide
  have hname : (alignRoots e a).declared.name = "src" := rfl
  obtain ⟨_, hE, hA, _⟩ := conservation_compareRoots he ha
  rw [hmismatch, hname, hroot, List.map_singleton, hdeclared, hsizes.1] at hE
  rw [hmismatch, hextra, hname, hroot, List.map_singleton, List.map_singleton, hlib, htests,
    hsizes.2] at hA
  exact ⟨he, ha, hmismatch, hextra, by simpa [report] using hE,
    by simpa [report] using hA⟩

end LayoutCheck
