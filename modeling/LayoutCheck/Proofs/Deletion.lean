import LayoutCheck.Proofs.Alteration
import LayoutCheck.Proofs.Share
import Mathlib.Data.List.Induction

/-!
Deleting an observed entry.

Where the entry was compliant or mismatched, all that is declared from its path on becomes missing
(`Alteration.find?_of_deleted`). Where it was extra, its status goes
(`Alteration.find?_of_deleted_extra`). An entry without a status lies below one that is not looked
into (`exists_cover`), and nothing changes. So no path becomes compliant and none stops being
declared, and the share of what is compliant cannot rise (`Alteration.share_le_of_deleted`).
-/

namespace LayoutCheck

variable {e a u : Tree} {ns : List String} {s : Status} {p q : String}

theorem fits_delete (hns : ns ≠ []) (hthere : (kindAt? (some a) ns).isSome) :
    Action.delete.Fits none a ns := by
  refine ⟨hns, kindAt?_dropLast hns hthere, ?_, ?_, ?_⟩ <;> simp [hthere]

/-- An entry that is there without a status lies below an extra or a mismatched one. -/
theorem exists_cover (hthere : (kindAt? (some a) ns).isSome)
    (hnone : statusAt (some e) (some a) ns = none) :
    ∃ ms k ks s, ns = ms ++ k :: ks ∧ statusAt (some e) (some a) ms = some s ∧
      (s = .extra ∨ s = .typeMismatch) := by
  induction ns using List.reverseRecOn with
  | nil => simp at hnone
  | append_singleton ns n ih =>
    have hdir : kindAt? (some a) ns = some .directory := by
      simpa using kindAt?_dropLast (by simp) hthere
    have hparent : statusAt (some e) (some a) ns ≠ some .compliant := by
      intro hparent
      have hsome := (isSome_statusAt_iff (by simp) hthere).mpr (by simpa using hparent)
      simp [hnone] at hsome
    cases hs : statusAt (some e) (some a) ns with
    | none =>
      obtain ⟨ms, k, ks, s, rfl, hms⟩ := ih (by simp [hdir]) hs
      exact ⟨ms, k, ks ++ [n], s, by simp, hms⟩
    | some s =>
      refine ⟨ns, n, [], s, rfl, hs, ?_⟩
      have hmissing : s ≠ .missing := (isSome_kindAt?_of_statusAt hs).2.mp (by simp [hdir])
      cases s with
      | compliant => exact absurd hs hparent
      | missing => exact absurd rfl hmissing
      | extra => exact .inl rfl
      | typeMismatch => exact .inr rfl

/-- A path that is there without a status lies below an extra or a mismatched one. -/
theorem Counterparts.exists_cover (h : Counterparts e a) (hns : ∀ n ∈ ns, IsName n)
    (hthere : (kindAt? (some a) ns).isSome) (hnone : statusAt (some e) (some a) ns = none) :
    ∃ q, isBelow (joinNames e.name ns) q ∧
      ((compareRoots e a).value.results.find? q = some .extra ∨
        (compareRoots e a).value.results.find? q = some .typeMismatch) := by
  obtain ⟨ms, k, ks, s, rfl, hms, hs⟩ := LayoutCheck.exists_cover hthere hnone
  have hne : ms ≠ [] := by
    rintro rfl
    rw [h.statusAt_root, Option.some.injEq] at hms
    subst hms
    simp at hs
  have hnames : ∀ n ∈ ms, IsName n := h.isName_of_statusAt hms
  refine ⟨joinNames e.name ms, ?_, ?_⟩
  · exact (isBelow_joinNames h.declared.isName hns hnames).mpr ⟨k, ks, rfl⟩
  · rw [h.find?_joinNames hnames hne, hms]
    simpa using hs

/-- What is declared below the roots counts. -/
theorem Counterparts.expectedTotal_pos (h : Counterparts e a) (hdeclared : e.children ≠ []) :
    0 < (Report.ofResults (compareRoots e a).value.results).counts.expectedTotal := by
  obtain ⟨c, hc⟩ := List.exists_mem_of_ne_nil _ hdeclared
  have hchild : e.child? c.name = some c := Tree.child?_of_mem h.declared.distinct.nodup hc
  have hroot : verdict e (some a) ≠ .typeMismatch := by simp [verdict, h.kind_eq]
  have hs : statusAt (some e) (some a) [c.name] = some (verdict c (a.child? c.name)) := by
    rw [statusAt_cons, if_neg hroot, hchild, observed?_some, statusAt_nil]
  have hfind := h.find?_results.mpr ⟨_, by simp, rfl, hs⟩
  rw [Results.expectedTotal_eq_length]
  refine List.length_pos_of_mem (Results.mem_pathsWhere.mpr ⟨_, hfind, ?_⟩)
  simp [verdict_ne_extra]

namespace Alteration

/-- An entry that is there has a status when the directory that holds it is compliant. -/
theorem isSome_find?_iff (h : Alteration e a none ns u) (hthere : (kindAt? (some a) ns).isSome) :
    ((compareRoots e a).value.results.find? (joinNames e.name ns)).isSome ↔
      statusAt (some e) (some a) ns.dropLast = some .compliant := by
  rw [h.before.find?_joinNames h.names h.ne_nil, isSome_statusAt_iff h.ne_nil hthere]

/-- Without the entry, all that is declared from its path on is missing. -/
theorem find?_of_deleted (h : Alteration e a none ns u)
    (hparent : statusAt (some e) (some a) ns.dropLast = some .compliant)
    (hq : q = joinNames e.name ns ∨ isBelow q (joinNames e.name ns)) :
    (compareRoots e u).value.results.find? q = some s ↔
      s = .missing ∧ (e.entryAt? e.name q).isSome := by
  rw [h.find?_here hparent hq]
  constructor
  · rintro ⟨ks, rfl, hs⟩
    cases ht : e.resolve? ns with
    | none => simp [ht] at hs
    | some t =>
      rw [ht, statusAt_none_actual] at hs
      obtain ⟨rfl, hks⟩ := hs
      obtain ⟨v, hv⟩ := Option.isSome_iff_exists.mp hks
      refine ⟨rfl, Option.isSome_iff_exists.mpr ⟨v, ?_⟩⟩
      rw [Tree.entryAt?_eq_some_iff h.before.declared]
      exact ⟨ns ++ ks, rfl, by simp [Tree.resolve?_append, ht, hv]⟩
  · rintro ⟨rfl, hdeclared⟩
    obtain ⟨v, hv⟩ := Option.isSome_iff_exists.mp hdeclared
    obtain ⟨ms, rfl, hms⟩ := (Tree.entryAt?_eq_some_iff h.before.declared).mp hv
    obtain ⟨ks, rfl⟩ := (h.eq_or_isBelow_iff
      (Tree.NamedBy.valid_of_resolve? h.before.declared hms)).mp hq
    refine ⟨ks, rfl, ?_⟩
    rw [Tree.resolve?_append] at hms
    obtain ⟨t, ht, hks⟩ := Option.bind_eq_some_iff.mp hms
    rw [ht, statusAt_none_actual, hks]
    exact ⟨rfl, rfl⟩

/-- Without an extra entry its status is gone, and nothing else. -/
theorem find?_of_deleted_extra (h : Alteration e a none ns u)
    (hextra : statusAt (some e) (some a) ns = some .extra) (q : String) :
    (compareRoots e u).value.results.find? q =
      if q = joinNames e.name ns then none else (compareRoots e a).value.results.find? q := by
  have hparent : statusAt (some e) (some a) ns.dropLast = some .compliant :=
    (status_parent h.ne_nil hextra).resolve_right fun hm => absurd hm.2 (by decide)
  have hundeclared : e.resolve? ns = none := by
    simpa using (isSome_resolve?_of_statusAt hextra).1
  by_cases hq : q = joinNames e.name ns ∨ isBelow q (joinNames e.name ns)
  · have hafter : (compareRoots e u).value.results.find? q = none := by
      rw [Option.eq_none_iff_forall_ne_some]
      intro s hs
      obtain ⟨ks, _, hks⟩ := (h.find?_here hparent hq).mp hs
      simp [hundeclared] at hks
    rw [hafter]
    split
    · rfl
    · rename_i hne
      symm
      rw [Option.eq_none_iff_forall_ne_some]
      intro s hs
      obtain ⟨ks, rfl, hks⟩ := (h.find?_before hparent hq).mp hs
      rw [hundeclared, statusAt_none_eq_some] at hks
      simp [hks.1] at hne
  · rw [h.find?_elsewhere hq, if_neg fun heq => hq (.inl heq)]

/-- What is compliant without the entry was compliant before. -/
theorem compliant_of_deleted (h : Alteration e a none ns u)
    (hq : (compareRoots e u).value.results.find? q = some .compliant) :
    (compareRoots e a).value.results.find? q = some .compliant := by
  by_cases hparent : statusAt (some e) (some a) ns.dropLast = some .compliant
  · by_cases hhere : q = joinNames e.name ns ∨ isBelow q (joinNames e.name ns)
    · exact absurd ((h.find?_of_deleted hparent hhere).mp hq).1 (by decide)
    · rw [← h.find?_elsewhere hhere, hq]
  · rw [← h.results_of_covered hparent, hq]

/-- What was declared is still declared without the entry. -/
theorem declared_of_deleted (h : Alteration e a none ns u) (hs : s ≠ .extra)
    (hq : (compareRoots e a).value.results.find? q = some s) :
    ∃ t, (compareRoots e u).value.results.find? q = some t ∧ t ≠ .extra := by
  by_cases hparent : statusAt (some e) (some a) ns.dropLast = some .compliant
  · by_cases hhere : q = joinNames e.name ns ∨ isBelow q (joinNames e.name ns)
    · refine ⟨.missing, (h.find?_of_deleted hparent hhere).mpr ⟨rfl, ?_⟩, by decide⟩
      exact (h.before.isSome_entryAt? hq).1 hs
    · exact ⟨s, (h.find?_elsewhere hhere).trans hq, hs⟩
  · exact ⟨s, by rw [h.results_of_covered hparent, hq], hs⟩

theorem expectedTotal_le_of_deleted (h : Alteration e a none ns u) :
    (Report.ofResults (compareRoots e a).value.results).counts.expectedTotal ≤
      (Report.ofResults (compareRoots e u).value.results).counts.expectedTotal := by
  rw [Results.expectedTotal_eq_length, Results.expectedTotal_eq_length]
  refine Results.length_pathsWhere_le fun q s hs hextra => ?_
  obtain ⟨t, ht, htextra⟩ := h.declared_of_deleted (of_decide_eq_true hextra) hs
  exact ⟨t, ht, decide_eq_true htextra⟩

theorem share_le_of_deleted (h : Alteration e a none ns u) (hdeclared : e.children ≠ []) :
    (Report.ofResults (compareRoots e u).value.results).counts.share ≤
      (Report.ofResults (compareRoots e a).value.results).counts.share := by
  refine Counts.share_le ?_ (h.before.expectedTotal_pos hdeclared) h.expectedTotal_le_of_deleted
  rw [Results.compliant_eq_length, Results.compliant_eq_length]
  refine Results.length_pathsWhere_le fun q s hs hcompliant => ?_
  obtain rfl := of_decide_eq_true hcompliant
  exact ⟨.compliant, h.compliant_of_deleted hs, rfl⟩

theorem share_lt_of_deleted (h : Alteration e a none ns u) (hdeclared : e.children ≠ [])
    (hparent : statusAt (some e) (some a) ns.dropLast = some .compliant)
    (hs : (compareRoots e a).value.results.find? (joinNames e.name ns) = some .compliant) :
    (Report.ofResults (compareRoots e u).value.results).counts.share <
      (Report.ofResults (compareRoots e a).value.results).counts.share := by
  refine Counts.share_lt ?_ (h.before.expectedTotal_pos hdeclared) h.expectedTotal_le_of_deleted
  rw [Results.compliant_eq_length, Results.compliant_eq_length]
  refine Results.length_pathsWhere_lt (fun q s hq hcompliant => ?_) hs rfl fun t ht => ?_
  · obtain rfl := of_decide_eq_true hcompliant
    exact ⟨.compliant, h.compliant_of_deleted hq, rfl⟩
  · obtain ⟨rfl, _⟩ := (h.find?_of_deleted hparent (.inl rfl)).mp ht
    decide

end Alteration

/--
Deleting an observed entry below the root. If it was compliant or mismatched, just what is declared
from its path on is missing there. If it was extra, its status is gone and nothing else. If it had
no status, it lies below an extra or a mismatched one, and nothing changes. No other path is
affected, and the share of what is compliant does not rise; it falls if the entry was compliant.
-/
theorem compareRoots_delete (h : Counterparts e a) (hp : (a.entryAt? a.name p).isSome)
    (hroot : p ≠ a.name) : ∃ rest, a.alter? .delete none p = some rest ∧
      let before := (compareRoots e a).value.results
      let after := (compareRoots e rest).value.results
      let share := fun r => (Report.ofResults r).counts.share
      before.find? p ≠ some .missing ∧
      (before.find? p = some .compliant ∨ before.find? p = some .typeMismatch →
        ∀ q, q = p ∨ isBelow q p → ∀ s, after.find? q = some s ↔
          s = .missing ∧ (e.entryAt? e.name q).isSome) ∧
      (before.find? p = some .extra →
        ∀ q, after.find? q = if q = p then none else before.find? q) ∧
      (before.find? p = none → after = before ∧
        ∃ q, isBelow p q ∧ (before.find? q = some .extra ∨ before.find? q = some .typeMismatch)) ∧
      (∀ q, q ≠ p → ¬ isBelow q p → after.find? q = before.find? q) ∧
      (e.children ≠ [] → 0 < (Report.ofResults before).counts.expectedTotal ∧
        share after ≤ share before ∧
        (before.find? p = some .compliant → share after < share before)) := by
  obtain ⟨entry, hentry⟩ := Option.isSome_iff_exists.mp hp
  obtain ⟨ns, rfl, hns⟩ := (Tree.entryAt?_eq_some_iff h.actual).mp hentry
  have hne : ns ≠ [] := by
    rintro rfl
    exact hroot rfl
  have hnames : ∀ n ∈ ns, IsName n := Tree.NamedBy.valid_of_resolve? h.actual hns
  have hthere : (kindAt? (some a) ns).isSome := by simp [kindAt?, hns]
  obtain ⟨rest, hrest, halt⟩ := h.exists_alter? (fits_delete hne hthere) hnames (by simp)
  rw [← h.name_eq]
  refine ⟨rest, hrest, ?_⟩
  intro before after share
  have hstatus : before.find? (joinNames e.name ns) = statusAt (some e) (some a) ns :=
    h.find?_joinNames hnames hne
  have hparent : ∀ s, before.find? (joinNames e.name ns) = some s →
      statusAt (some e) (some a) ns.dropLast = some .compliant := fun s hs =>
    (halt.isSome_find?_iff hthere).mp (Option.isSome_iff_exists.mpr ⟨s, hs⟩)
  refine ⟨?_, ?_, ?_, fun hs => ⟨?_, ?_⟩, ?_, fun hdeclared => ⟨?_, ?_, fun hs => ?_⟩⟩
  · intro hs
    exact (isSome_kindAt?_of_statusAt (hstatus.symm.trans hs)).2.mp hthere rfl
  · intro hs q hq s
    exact halt.find?_of_deleted (hs.elim (hparent _) (hparent _)) hq
  · intro hs
    exact halt.find?_of_deleted_extra (hstatus.symm.trans hs)
  · refine halt.results_of_covered fun hcompliant => ?_
    have hsome := (halt.isSome_find?_iff hthere).mpr hcompliant
    exact absurd hs (Option.isSome_iff_ne_none.mp hsome)
  · exact h.exists_cover hnames hthere (hstatus.symm.trans hs)
  · intro q hqne hqbelow
    exact halt.find?_elsewhere (not_or.mpr ⟨hqne, hqbelow⟩)
  · exact h.expectedTotal_pos hdeclared
  · exact halt.share_le_of_deleted hdeclared
  · exact halt.share_lt_of_deleted hdeclared (hparent _ hs) hs

/-- A directory is deleted with a compliant, a missing and an extra entry in it. -/
theorem compareRoots_delete_directory :
    let e := Tree.branch "src" [.branch "lib" [.leaf "mod.rs", .leaf "io.rs"], .leaf "main.rs"]
    let a := Tree.branch "src" [.branch "lib" [.leaf "mod.rs", .leaf "tmp"], .leaf "main.rs"]
    let before := (compareRoots e a).value.results
    Counterparts e a ∧ before.find? "src/lib" = some .compliant ∧
      before.find? "src/lib/tmp" = some .extra ∧
      ∃ rest, a.alter? .delete none "src/lib" = some rest ∧
        let after := (compareRoots e rest).value.results
        after.find? "src/lib/mod.rs" = some .missing ∧ after.find? "src/lib/tmp" = none ∧
          after.find? "src/main.rs" = some .compliant ∧
          (Report.ofResults after).counts.share < (Report.ofResults before).counts.share := by
  intro e a before
  have h : Counterparts e a := ⟨by decide, by decide, rfl, rfl, rfl⟩
  have hlib : before.find? "src/lib" = some .compliant := by decide
  have htmp : before.find? "src/lib/tmp" = some .extra := by decide
  have hmain : before.find? "src/main.rs" = some .compliant := by decide
  obtain ⟨rest, hrest, _, hhere, _, _, helsewhere, hshare⟩ :=
    compareRoots_delete (p := "src/lib") h (by decide) (by decide)
  refine ⟨h, hlib, htmp, rest, hrest, ?_, ?_, ?_, ?_⟩
  · exact (hhere (.inl hlib) _ (.inr (by decide)) _).mpr ⟨rfl, by decide⟩
  · rw [Option.eq_none_iff_forall_ne_some]
    intro s hs
    have hdeclared := ((hhere (.inl hlib) _ (.inr (by decide)) _).mp hs).2
    exact absurd hdeclared (by decide)
  · rw [helsewhere _ (by decide) (by decide)]
    exact hmain
  · exact (hshare (by decide)).2.2 hlib

end LayoutCheck
