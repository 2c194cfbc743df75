import LayoutCheck.Report.Remediation
import Mathlib.Data.Finset.Card
import Mathlib.Data.List.Sort
import Mathlib.Data.String.Basic

/-!
What is chosen out of the missing paths.

The choice looks at the set of the missing paths only, since it begins with their ascending list
(`distinct_congr`). Its three stages share one list of items and one limit: each adds paths that are
not in the list yet, and no more than there is room for (`Choice.append_takeNew`). The last stage
may add any missing path, so in the end the limit is reached or no path is left
(`Choice.length_append_takeNew`).
-/

namespace LayoutCheck.Remediation

variable {p q : String} {ps paths others taken candidates missing items : List String}
  {room limit : Nat}

/-! ## Distinct paths -/

theorem mem_insertPath : q ∈ insertPath p ps ↔ q = p ∨ q ∈ ps := by
  induction ps with
  | nil => simp [insertPath]
  | cons d ds ih =>
    simp only [insertPath]
    split
    · rw [List.mem_cons]
    · split
      · rename_i heq
        simp [heq]
      · rw [List.mem_cons, ih, List.mem_cons]
        exact or_left_comm

/-- A path is inserted as results are, whatever the statuses. -/
theorem insertPath_eq_map (p : String) (ps : List String) (s : Status) :
    insertPath p ps = (Results.insertEntry p s (ps.map (·, s))).map (·.1) := by
  induction ps with
  | nil => rfl
  | cons d ds ih =>
    simp only [insertPath, Results.insertEntry, List.map_cons]
    split
    · simp [Function.comp_def]
    · split
      · simp [Function.comp_def]
      · simp [ih]

theorem ascending_insertPath (h : ps.Pairwise (· < ·)) : (insertPath p ps).Pairwise (· < ·) := by
  have hentries : (ps.map (·, Status.missing)).Pairwise (fun a b => a.1 < b.1) :=
    List.pairwise_map.mpr h
  rw [insertPath_eq_map p ps .missing, List.pairwise_map]
  exact Results.ascending_insertEntry p .missing hentries

/-- Inserting paths one after the other keeps the order and adds nothing else. -/
theorem foldl_insertPath (paths : List String) (h : ps.Pairwise (· < ·)) :
    (paths.foldl (fun ps p => insertPath p ps) ps).Pairwise (· < ·) ∧
      ∀ q, q ∈ paths.foldl (fun ps p => insertPath p ps) ps ↔ q ∈ paths ∨ q ∈ ps := by
  induction paths generalizing ps with
  | nil => exact ⟨h, by simp⟩
  | cons p paths ih =>
    obtain ⟨hascending, hmem⟩ := ih (ascending_insertPath (p := p) h)
    refine ⟨hascending, fun q => ?_⟩
    rw [List.foldl_cons, hmem, mem_insertPath, List.mem_cons, or_assoc, or_left_comm]

theorem ascending_distinct (paths : List String) : (distinct paths).Pairwise (· < ·) :=
  (foldl_insertPath paths .nil).1

theorem mem_distinct : q ∈ distinct paths ↔ q ∈ paths := by
  simpa [distinct] using (foldl_insertPath paths .nil).2 q

theorem nodup_distinct (paths : List String) : (distinct paths).Nodup :=
  (ascending_distinct paths).imp fun hlt => Std.ne_of_lt hlt

theorem length_distinct (paths : List String) : (distinct paths).length = paths.toFinset.card := by
  have hset : (distinct paths).toFinset = paths.toFinset := by
    ext q
    rw [List.mem_toFinset, List.mem_toFinset, mem_distinct]
  rw [← hset, List.toFinset_card_of_nodup (nodup_distinct paths)]

/-- Only the set of the paths matters. -/
theorem distinct_congr (h : ∀ p, p ∈ others ↔ p ∈ paths) : distinct others = distinct paths := by
  refine (ascending_distinct others).eq_of_mem_iff (ascending_distinct paths) fun p => ?_
  rw [mem_distinct, mem_distinct, h]

/-! ## The stages of the choice -/

/-- Items that are taken once each, from the missing paths, and not more than the limit allows. -/
structure Choice (missing : List String) (limit : Nat) (items : List String) : Prop where
  nodup : items.Nodup
  subset : items ⊆ missing
  length_le : items.length ≤ limit

theorem mem_takeNew (h : p ∈ takeNew taken candidates room) : p ∈ candidates ∧ p ∉ taken := by
  simpa using List.mem_of_mem_take h

theorem length_takeNew_le : (takeNew taken candidates room).length ≤ room :=
  List.length_take_le _ _

theorem nodup_append_new (ht : taken.Nodup) (hc : candidates.Nodup) :
    (taken ++ candidates.filter (fun p => !taken.contains p)).Nodup := by
  refine List.nodup_append.mpr ⟨ht, hc.filter _, ?_⟩
  rintro p hp q hq rfl
  have hnew : p ∉ taken := by simpa using (List.mem_filter.mp hq).2
  exact hnew hp

/-- A stage takes paths that are candidates and have not been taken before. -/
theorem Choice.append_takeNew (h : Choice missing limit taken) (hnodup : candidates.Nodup)
    (hsub : candidates ⊆ missing) (hroom : room ≤ limit - taken.length) :
    Choice missing limit (taken ++ takeNew taken candidates room) := by
  have htaken : (taken ++ takeNew taken candidates room).Sublist
      (taken ++ candidates.filter (fun p => !taken.contains p)) :=
    (List.take_sublist _ _).append_left taken
  refine ⟨(nodup_append_new h.nodup hnodup).sublist htaken, ?_, ?_⟩
  · exact List.append_subset.mpr ⟨h.subset, fun p hp => hsub (mem_takeNew hp).1⟩
  · have hlimit : taken.length ≤ limit := h.length_le
    have hstage : (takeNew taken candidates room).length ≤ room := length_takeNew_le
    rw [List.length_append]
    omega

/-- What has been taken and what is new are all of the missing paths. -/
theorem Choice.perm_append_new (h : Choice missing limit taken) (hnodup : missing.Nodup) :
    (taken ++ missing.filter (fun p => !taken.contains p)).Perm missing := by
  rw [List.perm_ext_iff_of_nodup (nodup_append_new h.nodup hnodup) hnodup]
  intro p
  by_cases hp : p ∈ taken
  · simp [hp, h.subset hp]
  · simp [hp]

/-- A last stage that may take anything fills the room that is left, if there are paths enough. -/
theorem Choice.length_append_takeNew (h : Choice missing limit taken) (hnodup : missing.Nodup) :
    (taken ++ takeNew taken missing (limit - taken.length)).length =
      min limit missing.length := by
  have hlimit : taken.length ≤ limit := h.length_le
  have htotal := (h.perm_append_new hnodup).length_eq
  rw [List.length_append] at htotal
  rw [takeNew, List.length_append, List.length_take]
  omega

theorem perm_subtreeRoots (missing : List String) : (subtreeRoots missing).Perm
    (missing.filter fun p => isTopmost missing p && decide (0 < missingBelow missing p)) :=
  List.mergeSort_perm _ _

theorem mem_subtreeRoots :
    p ∈ subtreeRoots missing ↔ p ∈ missing ∧ isTopmost missing p ∧ 0 < missingBelow missing p := by
  rw [(perm_subtreeRoots missing).mem_iff]
  simp

theorem rootOrder_iff : rootOrder missing p q ↔
    missingBelow missing q < missingBelow missing p ∨
      missingBelow missing q = missingBelow missing p ∧ p ≤ q := by
  simp [rootOrder]

theorem pairwise_subtreeRoots (missing : List String) :
    (subtreeRoots missing).Pairwise (fun p q => rootOrder missing p q) := by
  refine List.pairwise_mergeSort ?_ ?_ _
  · intro p q r hpq hqr
    rw [rootOrder_iff] at *
    rcases hpq with hpq | ⟨hpq, hle⟩ <;> rcases hqr with hqr | ⟨hqr, hle'⟩
    · exact .inl (hqr.trans hpq)
    · exact .inl (hqr ▸ hpq)
    · exact .inl (hpq ▸ hqr)
    · exact .inr ⟨hqr.trans hpq, String.le_trans hle hle'⟩
  · intro p q
    rw [Bool.or_eq_true, rootOrder_iff, rootOrder_iff]
    rcases Nat.lt_trichotomy (missingBelow missing p) (missingBelow missing q) with h | h | h
    · exact .inr (.inl h)
    · rcases String.le_total p q with hle | hle
      · exact .inl (.inr ⟨h.symm, hle⟩)
      · exact .inr (.inr ⟨h, hle⟩)
    · exact .inl (.inl h)

theorem choice_take_subtreeRoots (hnodup : missing.Nodup) (hroom : room ≤ limit) :
    Choice missing limit ((subtreeRoots missing).take room) := by
  have hperm := perm_subtreeRoots missing
  refine ⟨?_, ?_, (List.length_take_le _ _).trans hroom⟩
  · exact (hperm.nodup_iff.mpr (hnodup.filter _)).sublist (List.take_sublist _ _)
  · intro p hp
    exact List.mem_of_mem_filter (hperm.mem_iff.mp (List.mem_of_mem_take hp))

/-- The choice is one for the limit, and takes as many paths as the limit allows. -/
theorem choice_ofDistinct (hnodup : missing.Nodup) (limit : Nat) :
    Choice missing limit (ofDistinct missing limit).items ∧
      (ofDistinct missing limit).items.length = min limit missing.length := by
  have hroots : Choice missing limit ((subtreeRoots missing).take (min maxSubtreeRoots limit)) :=
    choice_take_subtreeRoots hnodup (Nat.min_le_right _ _)
  have hfirst := hroots.append_takeNew (hnodup.filter isMarker) List.filter_sublist.subset
    (Nat.min_le_right maxMarkers _)
  exact ⟨hfirst.append_takeNew hnodup (List.Subset.refl _) (Nat.le_refl _),
    hfirst.length_append_takeNew hnodup⟩

/--
Of the missing paths, each counted once, as many are chosen as the limit allows, no path twice, and
all others are counted as left out. Neither the order of the missing paths nor how often one of them
is listed matters.
-/
theorem ofMissing_accounts (paths : List String) (limit : Nat) :
    let chosen := ofMissing paths limit
    let count := paths.toFinset.card
    chosen.items.Nodup ∧ (∀ p ∈ chosen.items, p ∈ paths) ∧
    chosen.items.length = min limit count ∧
    chosen.items.length ≤ count ∧ chosen.omitted = count - chosen.items.length ∧
    ∀ others : List String, (∀ p, p ∈ others ↔ p ∈ paths) → ofMissing others limit = chosen := by
  intro chosen count
  obtain ⟨hchoice, hlength⟩ := choice_ofDistinct (nodup_distinct paths) limit
  rw [length_distinct] at hlength
  refine ⟨hchoice.nodup, fun p hp => mem_distinct.mp (hchoice.subset hp), hlength, ?_, ?_, ?_⟩
  · exact hlength ▸ Nat.min_le_right limit count
  · show (distinct paths).length - chosen.items.length = count - chosen.items.length
    rw [length_distinct]
  · intro others hothers
    show ofDistinct (distinct others) limit = ofDistinct (distinct paths) limit
    rw [distinct_congr hothers]

/-- A marker that is also the root of a subtree is chosen once, and the markers use up the limit. -/
theorem ofMissing_accounts_markers :
    let paths := ["src/b.rs", "src/mod.rs/x", "src/mod.rs", "src/lib.rs", "src/b.rs",
      "src/main.rs", "src/__init__.py"]
    let chosen := ofMissing paths 3
    chosen = ⟨["src/mod.rs", "src/__init__.py", "src/lib.rs"], 3⟩ ∧
      chosen.items.length = min 3 paths.toFinset.card ∧
      ofMissing (paths.reverse ++ ["src/lib.rs"]) 3 = chosen := by
  intro paths chosen
  obtain ⟨_, _, hlength, _, _, hothers⟩ := ofMissing_accounts paths 3
  have hchosen : ofMissing paths 3 = ⟨["src/mod.rs", "src/__init__.py", "src/lib.rs"], 3⟩ := by cbv
  refine ⟨hchosen, hlength, hothers _ fun p => ?_⟩
  have hlib : "src/lib.rs" ∈ paths := by decide
  rw [List.mem_append, List.mem_reverse, List.mem_singleton]
  exact or_iff_left_of_imp fun hp => hp ▸ hlib

end LayoutCheck.Remediation
