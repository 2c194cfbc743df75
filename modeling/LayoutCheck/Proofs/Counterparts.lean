import LayoutCheck.Proofs.Pointwise
import LayoutCheck.Report.Remediation

/-!
Comparing two directories of one name.

Such directories stand for each other, and the results are the statuses of the paths below them
(`Counterparts.find?_results`). A path that lies below another one with a status is either below a
compliant one, or both are missing (`status_above`). So of the missing paths only those under a
path that is there need a repair (`Counterparts.mem_topmostMissing`).
-/

namespace LayoutCheck

variable {e a : Tree} {n : String} {ns ms : List String} {s : Status} {p : String}

/-- Two well-formed directories of one name. -/
structure Counterparts (e a : Tree) : Prop where
  declared : e.WellFormed
  actual : a.WellFormed
  declared_kind : e.kind = .directory
  actual_kind : a.kind = .directory
  name_eq : e.name = a.name

/-! ## Statuses above and below each other -/

/-- What has a status without being the root is compliant above, or missing with what is above. -/
theorem status_above {declared actual : Option Tree} (hms : ms ≠ [])
    (h : statusAt declared actual (ns ++ ms) = some s) :
    statusAt declared actual ns = some .compliant ∨
      statusAt declared actual ns = some .missing ∧ s = .missing := by
  induction ns generalizing declared actual with
  | nil =>
    obtain ⟨m, ms, rfl⟩ := List.exists_cons_of_ne_nil hms
    cases declared with
    | none => simp [statusAt_none_eq_some] at h
    | some e =>
      rw [List.nil_append] at h
      rw [statusAt_nil]
      cases hv : verdict e actual with
      | compliant => exact .inl rfl
      | missing =>
        obtain rfl : actual = none := verdict_eq_missing.mp hv
        exact .inr ⟨rfl, (statusAt_none_actual.mp h).1⟩
      | extra => exact absurd hv (verdict_ne_extra e actual)
      | typeMismatch => simp [statusAt_cons, hv] at h
  | cons n ns ih =>
    cases declared with
    | none => simp [statusAt_none_eq_some] at h
    | some e =>
      rw [List.cons_append, statusAt_cons] at h
      rw [statusAt_cons]
      split at h
      · simp at h
      · rename_i hv
        rw [if_neg hv]
        exact ih h

/-- The parent of what has a status is compliant, or both are missing. -/
theorem status_parent {declared actual : Option Tree} (hns : ns ≠ [])
    (h : statusAt declared actual ns = some s) :
    statusAt declared actual ns.dropLast = some .compliant ∨
      statusAt declared actual ns.dropLast = some .missing ∧ s = .missing := by
  rw [← List.dropLast_concat_getLast hns] at h
  exact status_above (by simp) h

namespace Counterparts

theorem symm (h : Counterparts e a) : Counterparts a e :=
  ⟨h.actual, h.declared, h.actual_kind, h.declared_kind, h.name_eq.symm⟩

theorem kind_eq (h : Counterparts e a) : e.kind = a.kind :=
  h.declared_kind.trans h.actual_kind.symm

/-- The roots themselves agree. -/
theorem statusAt_root (h : Counterparts e a) : statusAt (some e) (some a) [] = some .compliant := by
  simp [verdict, h.kind_eq]

theorem alignRoots_eq (h : Counterparts e a) : alignRoots e a = ⟨.sameName e.name, e, a⟩ :=
  (LinesUp.sameName h.name_eq).alignRoots_eq

theorem wellFormed (h : Counterparts e a) :
    Alignment.WellFormed ⟨.sameName e.name, e, a⟩ := ⟨h.declared, h.actual⟩

theorem isName_of_statusAt (h : Counterparts e a) (hs : statusAt (some e) (some a) ns = some s) :
    ∀ n ∈ ns, IsName n :=
  Alignment.isName_of_statusAt h.wellFormed hs

theorem find?_results_joinNames (h : Counterparts e a) (hns : ∀ n ∈ ns, IsName n) :
    (compareRoots e a).value.results.find? (joinNames e.name ns) = some s ↔
      ns ≠ [] ∧ statusAt (some e) (some a) ns = some s := by
  have hfind := Alignment.find?_results_joinNames (s := s) h.wellFormed hns
  rw [results_compareRoots, h.alignRoots_eq, hfind]
  simp [Alignment.recordsRoot, h.kind_eq]

theorem find?_joinNames (h : Counterparts e a) (hns : ∀ n ∈ ns, IsName n) (hne : ns ≠ []) :
    (compareRoots e a).value.results.find? (joinNames e.name ns) =
      statusAt (some e) (some a) ns := by
  apply Option.ext
  intro s
  rw [h.find?_results_joinNames hns, and_iff_right hne]

/-- The results are the statuses of what is below the roots. -/
theorem find?_results (h : Counterparts e a) :
    (compareRoots e a).value.results.find? p = some s ↔
      ∃ ns, ns ≠ [] ∧ joinNames e.name ns = p ∧ statusAt (some e) (some a) ns = some s := by
  constructor
  · intro hp
    obtain ⟨ns, hns, rfl⟩ : ∃ ns, (∀ n ∈ ns, IsName n) ∧ p = joinNames e.name ns := by
      rw [results_compareRoots, h.alignRoots_eq] at hp
      exact Alignment.exists_joinNames_of_find?_results h.wellFormed hp
    obtain ⟨hne, hs⟩ := (h.find?_results_joinNames hns).mp hp
    exact ⟨ns, hne, rfl, hs⟩
  · rintro ⟨ns, hne, rfl, hs⟩
    exact (h.find?_results_joinNames (h.isName_of_statusAt hs)).mpr ⟨hne, hs⟩

end Counterparts

/-! ## Missing entries of directories that are there -/

def Report.topmostMissing (r : Report) : List String :=
  r.missing.filter (Remediation.isTopmost r.missing)

namespace Alignment

variable {l : Alignment}

theorem joinNames_mem_missing (h : l.WellFormed) (hns : ∀ n ∈ ns, IsName n) :
    joinNames l.declared.name ns ∈ l.results.pathsWith .missing ↔
      statusAt (some l.declared) (some l.actual) ns = some .missing := by
  rw [Results.mem_pathsWith, find?_results_joinNames h hns, and_iff_right_iff_imp]
  rintro hs
  refine .inl ?_
  rintro rfl
  simp [verdict_eq_missing] at hs

theorem isTopmost_joinNames (h : l.WellFormed) (hns : ∀ n ∈ ns, IsName n) (hne : ns ≠ []) :
    Remediation.isTopmost (l.results.pathsWith .missing) (joinNames l.declared.name ns) ↔
      statusAt (some l.declared) (some l.actual) ns.dropLast ≠ some .missing := by
  have hnames : ∀ n ∈ ns.dropLast, IsName n := fun n hn => hns n (List.dropLast_subset ns hn)
  rw [Remediation.isTopmost, parentPath?_joinNames h.declared.isName hns hne]
  simpa using not_congr (joinNames_mem_missing h hnames)

end Alignment

theorem Counterparts.isTopmost_joinNames (h : Counterparts e a) (hns : ∀ n ∈ ns, IsName n)
    (hne : ns ≠ []) :
    Remediation.isTopmost (Report.ofResults (compareRoots e a).value.results).missing
        (joinNames e.name ns) ↔
      statusAt (some e) (some a) ns.dropLast ≠ some .missing := by
  rw [Report.ofResults, results_compareRoots, h.alignRoots_eq]
  exact Alignment.isTopmost_joinNames h.wellFormed hns hne

/-- The topmost missing paths belong to declared entries of directories that are there. -/
theorem Counterparts.mem_topmostMissing (h : Counterparts e a) :
    p ∈ (Report.ofResults (compareRoots e a).value.results).topmostMissing ↔
      ∃ ns, ns ≠ [] ∧ joinNames e.name ns = p ∧ statusAt (some e) (some a) ns = some .missing ∧
        statusAt (some e) (some a) ns.dropLast ≠ some .missing := by
  rw [Report.topmostMissing, List.mem_filter]
  constructor
  · rintro ⟨hp, htop⟩
    obtain ⟨ns, hne, rfl, hs⟩ := h.find?_results.mp (Results.mem_pathsWith.mp hp)
    exact ⟨ns, hne, rfl, hs, (h.isTopmost_joinNames (h.isName_of_statusAt hs) hne).mp htop⟩
  · rintro ⟨ns, hne, rfl, hs, habove⟩
    exact ⟨Results.mem_pathsWith.mpr (h.find?_results.mpr ⟨ns, hne, rfl, hs⟩),
      (h.isTopmost_joinNames (h.isName_of_statusAt hs) hne).mpr habove⟩

end LayoutCheck
