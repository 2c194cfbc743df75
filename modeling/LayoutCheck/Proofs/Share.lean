import LayoutCheck.EntryPath
import LayoutCheck.Proofs.Recording
import LayoutCheck.Report
import Mathlib.Algebra.Order.Field.Basic
import Mathlib.Algebra.Order.Field.Rat
import Mathlib.Data.List.Perm.Subperm
import Mathlib.Data.List.Sort
import Mathlib.Data.Nat.Cast.Order.Field
import Mathlib.Data.String.Basic

/-!
Comparing the counts of two results.

The paths whose status is one of several are listed once each (`nodup_pathsWhere`), so a number of
them is bounded by saying which of them the other results have as well (`length_pathsWhere_le`), or
found by counting what is at a path, below it and elsewhere (`length_pathsWhere`). The share of the
declared paths that is compliant falls when fewer of them are, of no fewer declared ones
(`Counts.share_le`, `Counts.share_lt`), and `Counts.share_lt_iff` weighs both against each other;
extra paths play no part in it (`Counts.percentage_congr`).
-/

namespace LayoutCheck

namespace Results

variable {r r' : Results} {P Q : Status → Bool} {p : String} {s : Status}

def pathsWhere (r : Results) (P : Status → Bool) : List String :=
  (r.entries.filter (fun x => P x.2)).map (·.1)

theorem mem_pathsWhere : p ∈ r.pathsWhere P ↔ ∃ s, r.find? p = some s ∧ P s := by
  simp only [pathsWhere, List.mem_map, List.mem_filter, Prod.exists, mem_entries]
  constructor
  · rintro ⟨q, s, h, rfl⟩
    exact ⟨s, h⟩
  · rintro ⟨s, h⟩
    exact ⟨p, s, h, rfl⟩

theorem nodup_pathsWhere (r : Results) (P : Status → Bool) : (r.pathsWhere P).Nodup := by
  have hascending : (r.pathsWhere P).Pairwise (· < ·) :=
    List.pairwise_map.mpr (r.ascending.filter _)
  exact hascending.imp fun hlt => Std.ne_of_lt hlt

/-- There are as many paths, or more, where each path of the one is one of the other. -/
theorem length_pathsWhere_le
    (h : ∀ p s, r.find? p = some s → P s → ∃ t, r'.find? p = some t ∧ Q t) :
    (r.pathsWhere P).length ≤ (r'.pathsWhere Q).length := by
  refine ((r.nodup_pathsWhere P).subperm fun p hp => ?_).length_le
  obtain ⟨s, hs, hP⟩ := mem_pathsWhere.mp hp
  exact mem_pathsWhere.mpr (h p s hs hP)

/-- There are more where moreover a path is not one of the others. -/
theorem length_pathsWhere_lt
    (h : ∀ p s, r.find? p = some s → P s → ∃ t, r'.find? p = some t ∧ Q t)
    (hr' : r'.find? p = some s) (hs : Q s) (hr : ∀ t, r.find? p = some t → ¬ P t) :
    (r.pathsWhere P).length < (r'.pathsWhere Q).length := by
  have hnew : p ∉ r.pathsWhere P := by
    rw [mem_pathsWhere]
    rintro ⟨t, ht, hP⟩
    exact hr t ht hP
  refine ((List.nodup_cons.mpr ⟨hnew, r.nodup_pathsWhere P⟩).subperm fun q hq => ?_).length_le
  rw [mem_pathsWhere]
  rcases List.mem_cons.mp hq with rfl | hq
  · exact ⟨s, hr', hs⟩
  · obtain ⟨t, ht, hP⟩ := mem_pathsWhere.mp hq
    exact h q t ht hP

theorem compliant_eq_length (r : Results) :
    (Report.ofResults r).counts.compliant = (r.pathsWhere (· = .compliant)).length := rfl

/-- What was declared has any status but extra. -/
theorem expectedTotal_eq_length (r : Results) :
    (Report.ofResults r).counts.expectedTotal = (r.pathsWhere (· ≠ .extra)).length := by
  simp only [Report.ofResults, Report.counts, Counts.expectedTotal, pathsWith, pathsWhere,
    List.length_map]
  induction r.entries with
  | nil => rfl
  | cons x xs ih =>
    obtain ⟨p, s⟩ := x
    cases s <;> simp at ih ⊢ <;> omega

/-- Results that agree on which paths have the status list the same paths for it. -/
theorem pathsWith_congr (h : ∀ p, r.find? p = some s ↔ r'.find? p = some s) :
    r.pathsWith s = r'.pathsWith s := by
  refine (r.ascending_pathsWith s).eq_of_mem_iff (r'.ascending_pathsWith s) fun p => ?_
  rw [mem_pathsWith, mem_pathsWith, h]

/-- Inserting a path leaves the lists of the other statuses as they are. -/
theorem pathsWith_insert_of_ne {t : Status} (h : s ≠ t) :
    (r.insert p t).pathsWith s = r.pathsWith s := by
  refine pathsWith_congr fun q => ?_
  rw [find?_insert]
  cases r.find? q with
  | none =>
    rw [Option.none_or]
    split <;> simp [h.symm]
  | some u => rw [Option.some_or]

/-! ### Paths below and elsewhere -/

def countBelow (r : Results) (P : Status → Bool) (p : String) : Nat :=
  (r.pathsWhere P).countP (isBelow · p)

/-- How many paths that are neither the path itself nor below it have a status that is accepted. -/
def countElsewhere (r : Results) (P : Status → Bool) (p : String) : Nat :=
  (r.pathsWhere P).countP (fun q => q ≠ p ∧ ¬ isBelow q p)

theorem not_isBelow_self (p : String) : ¬ isBelow p p := by
  rw [isBelow_iff]
  rintro ⟨rest, h⟩
  have hlength := congrArg List.length h
  rw [List.length_append, List.length_cons] at hlength
  omega

theorem count_pathsWhere (r : Results) (P : Status → Bool) (p : String) :
    (r.pathsWhere P).count p = ((r.find? p).any P).toNat := by
  rw [(r.nodup_pathsWhere P).count]
  cases h : r.find? p with
  | none => simp [mem_pathsWhere, h]
  | some s => cases hs : P s <;> simp [mem_pathsWhere, h, hs]

/-- A path that is accepted is a given one, below that or elsewhere. -/
theorem length_pathsWhere (r : Results) (P : Status → Bool) (p : String) :
    (r.pathsWhere P).length =
      ((r.find? p).any P).toNat + r.countBelow P p + r.countElsewhere P p := by
  rw [← count_pathsWhere, countBelow, countElsewhere]
  induction r.pathsWhere P with
  | nil => rfl
  | cons q qs ih =>
    rw [List.length_cons, List.count_cons, List.countP_cons, List.countP_cons, ih]
    by_cases hq : q = p
    · subst hq
      simp [not_isBelow_self]
      omega
    · by_cases hbelow : isBelow q p <;> simp [hq, hbelow] <;> omega

theorem countBelow_eq_zero (h : ∀ q, isBelow q p → r.find? q = none) : r.countBelow P p = 0 := by
  rw [countBelow, List.countP_eq_zero]
  intro q hq hbelow
  obtain ⟨s, hs, _⟩ := mem_pathsWhere.mp hq
  simp [h q hbelow] at hs

/-- Where the same statuses are accepted below, as many paths are counted. -/
theorem countBelow_congr (h : ∀ q s, isBelow q p → r.find? q = some s → (P s ↔ Q s)) :
    r.countBelow P p = r.countBelow Q p := by
  have hentries (P : Status → Bool) :
      r.countBelow P p = r.entries.countP (fun x => isBelow x.1 p && P x.2) := by
    rw [countBelow, pathsWhere, List.countP_map, List.countP_filter]
    rfl
  rw [hentries, hentries]
  refine List.countP_congr fun x hx => ?_
  rw [Bool.and_eq_true, Bool.and_eq_true]
  exact and_congr_right fun hbelow => h x.1 x.2 hbelow (mem_entries.mp hx)

theorem countElsewhere_congr (h : ∀ q, q ≠ p → ¬ isBelow q p → r'.find? q = r.find? q) :
    r'.countElsewhere P p = r.countElsewhere P p := by
  have hperm : ((r'.pathsWhere P).filter (fun q => q ≠ p ∧ ¬ isBelow q p)).Perm
      ((r.pathsWhere P).filter (fun q => q ≠ p ∧ ¬ isBelow q p)) := by
    rw [List.perm_ext_iff_of_nodup ((r'.nodup_pathsWhere P).filter _)
      ((r.nodup_pathsWhere P).filter _)]
    intro q
    simp only [List.mem_filter, mem_pathsWhere, decide_eq_true_eq]
    exact and_congr_left fun hq => by rw [h q hq.1 hq.2]
  rw [countElsewhere, countElsewhere, List.countP_eq_length_filter, List.countP_eq_length_filter,
    hperm.length_eq]

end Results

namespace Counts

variable {c d : Counts}

/-- Only the status extra plays no part in the share of the declared paths. -/
theorem percentage_congr (h : ∀ s, s ≠ .extra → c.get s = d.get s) :
    c.percentage = d.percentage := by
  have hcompliant : c.compliant = d.compliant := h .compliant (by decide)
  have hmissing : c.missing = d.missing := h .missing (by decide)
  have hmismatch : c.typeMismatch = d.typeMismatch := h .typeMismatch (by decide)
  rw [percentage, percentage, expectedTotal, expectedTotal, hcompliant, hmissing, hmismatch]

/-- The share of the declared paths that is compliant, as an exact number; zero of none. -/
def share (c : Counts) : ℚ := c.compliant / c.expectedTotal

theorem share_le (hcompliant : d.compliant ≤ c.compliant) (hpos : 0 < c.expectedTotal)
    (htotal : c.expectedTotal ≤ d.expectedTotal) : d.share ≤ c.share :=
  div_le_div₀ (Nat.cast_nonneg _) (Nat.cast_le.mpr hcompliant) (Nat.cast_pos.mpr hpos)
    (Nat.cast_le.mpr htotal)

theorem share_lt (hcompliant : d.compliant < c.compliant) (hpos : 0 < c.expectedTotal)
    (htotal : c.expectedTotal ≤ d.expectedTotal) : d.share < c.share :=
  div_lt_div₀ (Nat.cast_lt.mpr hcompliant) (Nat.cast_le.mpr htotal) (Nat.cast_nonneg _)
    (Nat.cast_pos.mpr hpos)

/--
Taking compliant paths and others away from the declared ones lowers the share just when more of
them are compliant than the share of what is left would give.
-/
theorem share_lt_iff {less others : Nat} (hpos : 0 < d.expectedTotal)
    (hcompliant : c.compliant = d.compliant + less)
    (htotal : c.expectedTotal = d.expectedTotal + others) :
    d.share < c.share ↔ d.compliant * others < less * d.expectedTotal := by
  have hpos' : 0 < c.expectedTotal := by omega
  rw [share, share, div_lt_div_iff₀ (Nat.cast_pos.mpr hpos) (Nat.cast_pos.mpr hpos')]
  rw [← Nat.cast_mul, ← Nat.cast_mul, Nat.cast_lt, hcompliant, htotal, Nat.mul_add, Nat.add_mul]
  omega

end Counts

end LayoutCheck
