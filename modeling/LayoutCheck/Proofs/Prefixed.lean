import LayoutCheck.Proofs.Findings

/-!
Comparisons under a path.

Putting all paths under another one keeps their order, so it can be done to results as they are
(`Results.under`), and to what is recorded before the results are made (`value_follow_under`). The
findings of a comparison do not depend on the path under which it is made; only the text before the
declared name does (`Finding.entry_append_slash`). So the results under a path are those under no
path, put under it (`compare_under`).
-/

namespace LayoutCheck

namespace Results

variable {above p q : String} {s : Status} {es : List (String × Status)} {ss ts : List Step}

theorem append_slash_lt (above : String) (h : p < q) : above ++ "/" ++ p < above ++ "/" ++ q := by
  rw [String.lt_iff] at h ⊢
  rw [String.toList_append, String.toList_append (s := above ++ "/")]
  exact List.append_left_lt h

def entryUnder (above : String) (e : String × Status) : String × Status :=
  (above ++ "/" ++ e.1, e.2)

/-- The same statuses, for the paths under another one. -/
def under (above : String) (r : Results) : Results where
  entries := r.entries.map (entryUnder above)
  ascending := List.pairwise_map.mpr (r.ascending.imp (append_slash_lt above))

theorem lookup_under (above p : String) (es : List (String × Status)) :
    lookup (above ++ "/" ++ p) (es.map (entryUnder above)) = lookup p es := by
  simp [lookup, entryUnder, List.find?_map, Function.comp_def, String.append_right_inj]

theorem lookup_under_eq_none (h : ∀ p, q ≠ above ++ "/" ++ p) :
    lookup q (es.map (entryUnder above)) = none := by
  rw [lookup_eq_none]
  intro e he
  obtain ⟨d, _, rfl⟩ := List.mem_map.mp he
  exact Ne.symm (h d.1)

/-- Recording under a path gives the results under that path, repeated paths included. -/
theorem value_follow_under (h : recordings ts = (recordings ss).map (entryUnder above)) :
    (empty.follow ts).value = (empty.follow ss).value.under above := by
  refine ext_find? fun q => ?_
  rw [find?_follow, find?_empty, Option.none_or, h]
  by_cases hq : ∃ p, q = above ++ "/" ++ p
  · obtain ⟨p, rfl⟩ := hq
    have hvalue : (empty.follow ss).value.find? p = lookup p (recordings ss) := by
      rw [find?_follow, find?_empty, Option.none_or]
    rw [lookup_under, ← hvalue]
    exact (lookup_under above p _).symm
  · -- a path that does not lie under the other one has no status on either side
    have hout : ∀ p, q ≠ above ++ "/" ++ p := not_exists.mp hq
    rw [lookup_under_eq_none hout]
    exact (lookup_under_eq_none hout).symm

end Results

/-- Names lead to the same path under another one when there is a name before them. -/
theorem joinNames_append_slash (above : String) {n : String} (hn : n ≠ "") (ns : List String) :
    joinNames (above ++ "/" ++ n) ns = above ++ "/" ++ joinNames n ns := by
  have hne : above ++ "/" ++ n ≠ "" := by simp [String.append_eq_empty_iff]
  rw [joinNames_eq_intercalate hne, joinNames_eq_intercalate hn, String.intercalate_cons_append]

theorem Finding.entry_append_slash (above : String) {n : String} (hn : n ≠ "") (f : Finding) :
    f.entry (above ++ "/" ++ n) = Results.entryUnder above (f.entry n) := by
  rw [entry, joinNames_append_slash above hn]
  rfl

/-- The steps of a comparison under a path record what those under no path do, under it. -/
theorem recordings_compareSteps_under {above : String} {e : Tree} (habove : above ≠ "")
    (he : e.name ≠ "") (a : Option Tree) :
    recordings (compareSteps above a e) =
      (recordings (compareSteps "" a e)).map (Results.entryUnder above) := by
  rw [recordings_compareSteps, recordings_compareSteps, joinPath_of_ne habove, joinPath_empty,
    List.map_map]
  exact List.map_congr_left fun f _ => f.entry_append_slash above he

/--
Comparing a declared tree under a path gives the statuses that comparing it under no path gives,
for the paths under that path, whether the observed tree is there or not and of whatever kind it is.
Only the declared root must have a name: then no path on the way is empty, whatever the names below.
-/
theorem compare_under {above : String} {e : Tree} (habove : above ≠ "") (he : e.name ≠ "")
    (a : Option Tree) :
    (compare above a e).value.entries =
      (compare "" a e).value.entries.map fun entry => (above ++ "/" ++ entry.1, entry.2) :=
  congrArg Results.entries
    (Results.value_follow_under (recordings_compareSteps_under habove he a))

/-- In one tree something is present, absent, extra and of the other kind, two levels deep. -/
theorem compare_under_workspace :
    let e := Tree.branch "src" [.branch "lib" [.leaf "mod.rs", .leaf "io.rs"], .branch "docs" []]
    let a := Tree.branch "src" [.leaf "docs", .branch "lib" [.leaf "mod.rs", .leaf "old.rs"]]
    "a/b" ≠ "" ∧ e.name ≠ "" ∧
      (compare "a/b" (some a) e).value.entries =
        [("a/b/src", .compliant), ("a/b/src/docs", .typeMismatch), ("a/b/src/lib", .compliant),
          ("a/b/src/lib/io.rs", .missing), ("a/b/src/lib/mod.rs", .compliant),
          ("a/b/src/lib/old.rs", .extra)] := by
  intro e a
  have habove : "a/b" ≠ "" := by decide
  have he : e.name ≠ "" := by decide
  refine ⟨habove, he, ?_⟩
  rw [compare_under habove he]
  decide

end LayoutCheck
