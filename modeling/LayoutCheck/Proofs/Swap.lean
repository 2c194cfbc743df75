import LayoutCheck.Proofs.Counterparts
import LayoutCheck.Proofs.Share

/-!
What becomes of a comparison when the trees change places.

Compliant and mismatched paths stay what they are (`statusAt_comm`). What is extra in one direction
is missing in the other, where everything below it is missing as well: the extra paths are the
topmost of the missing ones (`statusAt_eq_extra_iff`).
-/

namespace LayoutCheck

variable {e a : Tree} {ns : List String} {s : Status}

theorem verdict_comm (e a : Tree) : verdict e (some a) = verdict a (some e) := by
  simp [verdict, eq_comm]

/-- Whether two entries agree does not depend on which of them is declared. -/
theorem statusAt_comm (hs : s = .compliant ∨ s = .typeMismatch) :
    statusAt (some e) (some a) ns = some s ↔ statusAt (some a) (some e) ns = some s := by
  have hne : s ≠ .missing ∧ s ≠ .extra := by
    rcases hs with rfl | rfl <;> decide
  induction ns generalizing e a with
  | nil => rw [statusAt_nil, statusAt_nil, verdict_comm]
  | cons n ns ih =>
    rw [statusAt_cons, statusAt_cons, verdict_comm, observed?_some, observed?_some]
    split
    · rfl
    · cases e.child? n with
      | none => cases a.child? n <;> simp [statusAt_none_eq_some, statusAt_none_actual, hne]
      | some c =>
        cases a.child? n with
        | none => simp [statusAt_none_eq_some, statusAt_none_actual, hne]
        | some o => exact ih

/-- In a tree that is not there everything above a missing entry is missing. -/
theorem statusAt_none_dropLast (h : statusAt (some e) none ns = some s) :
    statusAt (some e) none ns.dropLast = some .missing := by
  by_cases hns : ns = []
  · subst hns
    rfl
  · rcases status_parent hns h with hc | ⟨hm, _⟩
    · exact absurd (statusAt_none_actual.mp hc).1 (by decide)
    · exact hm

/-- What is extra is what would be missing, but not below something missing. -/
theorem statusAt_eq_extra_iff :
    statusAt (some e) (some a) ns = some .extra ↔
      statusAt (some a) (some e) ns = some .missing ∧
        statusAt (some a) (some e) ns.dropLast ≠ some .missing := by
  induction ns generalizing e a with
  | nil => simp [verdict_ne_extra, verdict_eq_missing]
  | cons n ns ih =>
    rw [statusAt_cons, statusAt_cons, verdict_comm, observed?_some, observed?_some]
    by_cases hv : verdict a (some e) = .typeMismatch
    · simp [hv]
    rw [if_neg hv, if_neg hv]
    cases ns with
    | nil =>
      have habove : statusAt (some a) (some e) [n].dropLast ≠ some .missing := by
        simp [verdict_eq_missing]
      rw [and_iff_left habove]
      cases e.child? n with
      | none => cases a.child? n <;> simp [statusAt, verdict]
      | some c => cases a.child? n <;> simp [statusAt, verdict_ne_extra, verdict_eq_missing]
    | cons m ms =>
      have habove : statusAt (some a) (some e) (n :: m :: ms).dropLast =
          statusAt (a.child? n) (e.child? n) (m :: ms).dropLast := by
        rw [List.dropLast_cons_cons, statusAt_cons, if_neg hv, observed?_some]
      rw [habove]
      cases e.child? n with
      | none =>
        cases a.child? n with
        | none => simp
        | some o =>
          -- all of the observed entry would be missing, so this one is not a topmost one
          constructor
          · simp [statusAt_none_eq_some]
          · rintro ⟨h, hne⟩
            exact absurd (statusAt_none_dropLast h) hne
      | some c =>
        cases a.child? n with
        | none => simp [statusAt_none_eq_some, statusAt_none_actual]
        | some o => exact ih

theorem pathsWith_swap (h : Counterparts e a) (hs : s = .compliant ∨ s = .typeMismatch) :
    (compareRoots e a).value.results.pathsWith s =
      (compareRoots a e).value.results.pathsWith s := by
  refine Results.pathsWith_congr fun p => ?_
  rw [h.find?_results, h.symm.find?_results, h.name_eq]
  simp only [statusAt_comm hs]

/--
When two directories of one name change places, the compliant and the mismatched paths are the same,
and the extra paths are the missing ones of the other comparison whose parents are not missing.
-/
theorem compareRoots_swap (h : Counterparts e a) :
    let forth := Report.ofResults (compareRoots e a).value.results
    let back := Report.ofResults (compareRoots a e).value.results
    forth.compliant = back.compliant ∧ forth.typeMismatch = back.typeMismatch ∧
      forth.extra = back.topmostMissing := by
  intro forth back
  refine ⟨pathsWith_swap h (.inl rfl), pathsWith_swap h (.inr rfl), ?_⟩
  have hforth : forth.extra.Pairwise (· < ·) := Results.ascending_pathsWith _ _
  have hback : back.topmostMissing.Pairwise (· < ·) := (Results.ascending_pathsWith _ _).filter _
  refine hforth.eq_of_mem_iff hback fun p => ?_
  rw [h.symm.mem_topmostMissing]
  simp only [forth, Report.ofResults, Results.mem_pathsWith, h.find?_results, h.name_eq,
    statusAt_eq_extra_iff]

theorem compareRoots_swap_nested :
    let tests := Tree.branch "tests" [.branch "unit" [.leaf "a.rs"], .leaf "all.rs"]
    let e := Tree.branch "src" [.branch "lib" [.leaf "mod.rs"], .leaf "main.rs", .leaf "docs"]
    let a := Tree.branch "src" [.branch "docs" [], .leaf "main.rs", tests]
    let back := Report.ofResults (compareRoots a e).value.results
    Counterparts e a ∧ back.compliant = ["src/main.rs"] ∧ back.typeMismatch = ["src/docs"] ∧
      back.missing =
        ["src/tests", "src/tests/all.rs", "src/tests/unit", "src/tests/unit/a.rs"] ∧
      back.topmostMissing = ["src/tests"] := by
  intro tests e a back
  have h : Counterparts e a := ⟨by decide, by decide, rfl, rfl, rfl⟩
  obtain ⟨hcompliant, hmismatch, hextra⟩ := compareRoots_swap h
  refine ⟨h, hcompliant.symm.trans ?_, hmismatch.symm.trans ?_, ?_, hextra.symm.trans ?_⟩ <;> decide

end LayoutCheck
