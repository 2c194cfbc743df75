import LayoutCheck.Proofs.Prune
import LayoutCheck.Proofs.Unfolding

/-!
Scans that pass over more names.

Such a scan shows of each directory what another one shows, without the entries of these names
(`shown_eq_filter`). Which directories a walk is in depends only on the way to where it is, so what
is passed over makes no difference elsewhere: the walk ends in the pruned tree (`EndsIn.prune`), and
so does the scan (`scan_prunes`).
-/

namespace LayoutCheck

/-! ## Sorting and leaving out -/

/-- A list has one partition into elements that do not satisfy a condition and ones that do. -/
theorem append_inj_of_forall {α : Type} {q : α → Bool} {xs ys zs ws : List α}
    (h : xs ++ ys = zs ++ ws) (hxs : ∀ b ∈ xs, ¬ q b) (hys : ∀ b ∈ ys, q b)
    (hzs : ∀ b ∈ zs, ¬ q b) (hws : ∀ b ∈ ws, q b) : xs = zs ∧ ys = ws := by
  have hafter : ∀ {as bs : List α}, (∀ b ∈ as, ¬ q b) → (∀ b ∈ bs, q b) →
      (as ++ bs).filter q = bs := by
    intro as bs has hbs
    rw [List.filter_append, List.filter_eq_nil_iff.mpr has, List.filter_eq_self.mpr hbs,
      List.nil_append]
  have heq : ys = ws := by rw [← hafter hxs hys, h, hafter hzs hws]
  subst heq
  exact ⟨List.append_cancel_right h, rfl⟩

/-- Elements can be left out before or after sorting, since sorting keeps equal ones in order. -/
theorem filter_mergeSort {α : Type} {le : α → α → Bool}
    (trans : ∀ a b c, le a b → le b c → le a c) (total : ∀ a b, le a b || le b a)
    (p : α → Bool) (l : List α) : (l.mergeSort le).filter p = (l.filter p).mergeSort le := by
  have hlater : ∀ {a : α} {l xs ys : List α}, (a :: l).mergeSort le = xs ++ a :: ys →
      ∀ b ∈ ys, le a b := by
    intro a l xs ys hsort
    have hsorted := List.pairwise_mergeSort trans total (a :: l)
    rw [hsort] at hsorted
    exact (List.pairwise_cons.mp (List.pairwise_append.mp hsorted).2.1).1
  induction l with
  | nil => simp
  | cons a l ih =>
    obtain ⟨xs, ys, hsort, hrest, hxs⟩ := List.mergeSort_cons trans total a l
    by_cases ha : p a
    · obtain ⟨zs, ws, hsort', hrest', hzs⟩ := List.mergeSort_cons trans total a (l.filter p)
      have heq : xs.filter p ++ ys.filter p = zs ++ ws := by
        rw [← List.filter_append, ← hrest, ih, hrest']
      obtain ⟨rfl, rfl⟩ := append_inj_of_forall heq
        (fun b hb => by simpa using hxs b (List.mem_of_mem_filter hb))
        (fun b hb => hlater hsort b (List.mem_of_mem_filter hb))
        (fun b hb => by simpa using hzs b hb) (hlater hsort')
      rw [hsort, List.filter_append, List.filter_cons_of_pos ha, List.filter_cons_of_pos ha,
        hsort']
    · rw [hsort, List.filter_append, List.filter_cons_of_neg ha, ← List.filter_append, ← hrest, ih,
        List.filter_cons_of_neg ha]

namespace Scan

variable {ω δ : Type} {extra : List String}

/-! ## One directory -/

theorem isIgnored_eq (extra : List String) (n : String) :
    isIgnored extra n = (isIgnored [] n || extra.contains n) := by
  simp [isIgnored]

theorem visible_eq_filter (extra : List String) (entries : List (Listed ω)) :
    visible extra entries = (visible [] entries).filter (fun e => !extra.contains e.name) := by
  rw [visible, visible, filter_mergeSort, List.filter_filter]
  · congr 2
    funext e
    rw [isIgnored_eq, Bool.not_or, Bool.and_comm]
  · simpa using fun _ _ _ => String.le_trans
  · simpa using fun _ _ => String.le_total _ _

variable [DecidableEq δ] {s : Surroundings ω δ} {v : Visit ω δ} {name : String} {m n : Nat}
  {t : Tree}

theorem shown_eq_filter (s : Surroundings ω δ) (extra : List String) (v : Visit ω δ) :
    shown s extra v = (shown s [] v).filter (fun e => !extra.contains e.name) := by
  unfold shown
  split
  · exact visible_eq_filter extra _
  · rfl

/-! ## Walks and scans -/

/-- A walk that passes over more names ends in the pruned tree. -/
theorem EndsIn.prune (h : EndsIn s [] m v name t) (hnests : NestsAtMost s n v) :
    EndsIn s extra n v name (t.prune extra.contains) := by
  induction n generalizing v name t m with
  | zero => exact hnests.elim
  | succ n ih =>
    obtain ⟨tree, rfl, htree⟩ := h.eq_branch_shown hnests
    have hkept : ((shown s [] v).map tree).filter (fun c => !extra.contains c.name) =
        (shown s extra v).map tree := by
      rw [List.filter_map, shown_eq_filter s extra v]
      refine congrArg (List.map tree) (List.filter_congr fun e he => ?_)
      simp only [Function.comp, (htree e he).name_eq (hnests.of_mem_shown he)]
    have hbelow : ∀ e ∈ shown s extra v,
        EntryEndsIn s extra n (v.inside s) e ((tree e).prune extra.contains) := by
      intro e he
      rw [shown_eq_filter] at he
      have hmem : e ∈ shown s [] v := List.mem_of_mem_filter he
      have hentry := htree e hmem
      unfold EntryEndsIn at hentry ⊢
      split at hentry
      · rename_i on hon
        exact ih hentry (hnests.of_mem_shown hmem on hon)
      · rw [hentry]
        rfl
    rw [Tree.prune_branch, hkept, List.map_map]
    exact endsIn_shown hbelow

/-- A scan has the same error, or the pruned tree. -/
theorem outcome_scan_eq_prune (s : BoundedSurroundings ω δ) (root : Root ω) (extra : List String) :
    (scan s extra root).outcome =
      (scan s [] root).outcome.map (Tree.prune extra.contains) := by
  cases hroot : root.way with
  | error cause => cases cause <;> simp [scan, hroot, Except.map]
  | ok target =>
    cases target with
    | none =>
      simp only [scan, hroot]
      rfl
    | some way =>
      obtain ⟨t, ht⟩ := exists_endsIn (s.nestsAtMost way) [] (root.baseName.getD unnamedRoot)
      rw [outcome_scan hroot ht, outcome_scan hroot (ht.prune (s.nestsAtMost way))]
      rfl

/-- A scan has a tree whenever there is something at the root. -/
theorem exists_outcome_scan (s : BoundedSurroundings ω δ) {root : Root ω} {target : Option ω}
    (hroot : root.way = .ok target) (extra : List String) :
    ∃ t, (scan s extra root).outcome = .ok t := by
  cases target with
  | none =>
    refine ⟨.leaf (root.baseName.getD unnamedRoot), ?_⟩
    simp only [scan, hroot]
    rfl
  | some way =>
    obtain ⟨t, ht⟩ := exists_endsIn (s.nestsAtMost way) extra (root.baseName.getD unnamedRoot)
    exact ⟨t, outcome_scan hroot ht⟩

/--
What a scan finds that passes over more names is the tree of the other scan without every entry of
such a name below the root. So the order and the repetition of these names do not matter, and they
can be left out in two parts, one after the other.
-/
theorem scan_prunes (s : BoundedSurroundings ω δ) (root : Root ω) {target : Option ω}
    (hroot : root.way = .ok target) :
    ∃ t, (scan s [] root).outcome = .ok t ∧
      (∀ extra, (scan s extra root).outcome = .ok (t.prune extra.contains)) ∧
      (∀ extra extra', (∀ n, n ∈ extra ↔ n ∈ extra') →
        (scan s extra root).outcome = (scan s extra' root).outcome) ∧
      ∀ extra extra', (scan s (extra ++ extra') root).outcome =
        .ok ((t.prune extra.contains).prune extra'.contains) := by
  obtain ⟨t, ht⟩ := exists_outcome_scan s hroot []
  have hprune : ∀ extra, (scan s extra root).outcome = .ok (t.prune extra.contains) := by
    intro extra
    rw [outcome_scan_eq_prune, ht]
    rfl
  refine ⟨t, ht, hprune, fun extra extra' hsame => ?_, fun extra extra' => ?_⟩
  · have hcontains : extra.contains = extra'.contains := by
      funext n
      rw [Bool.eq_iff_iff, List.contains_iff_mem, List.contains_iff_mem, hsame n]
    rw [hprune, hprune, hcontains]
  · have hcontains : (extra ++ extra').contains =
        fun n => extra.contains n || extra'.contains n := by
      funext n
      simp
    rw [hprune, Tree.prune_prune, hcontains]

end Scan

/-! ## Links into what is passed over -/

namespace DirectoryGraph

open Scan (shown arrive visible isIgnored ignoredNames)

/-- A directory with another one below it, to which there is also a link, and a link back. -/
def twoLinks : DirectoryGraph Bool where
  directories := [true, false]
  mem_directories d := by cases d <;> simp
  list
    | false => .ok [⟨"out", some true⟩, ⟨"lib", some true⟩]
    | true => .ok [⟨"up", some false⟩, ⟨"a", none⟩]
  nodup_names := by
    rintro (_ | _) entries ⟨⟩ <;> decide

def lowerTree (name : String) : Tree :=
  .directory name none [.leaf "a", .directory "up" none []]

theorem eq_lowerTree {name : String} {t : Tree}
    (h : twoLinks.Unfolds [] [false] ⟨name, some true⟩ t) : t = lowerTree name := by
  have hlower : twoLinks.shownIn [] [false] true = [⟨"a", none⟩, ⟨"up", some false⟩] := by
    simp [shownIn, shown, arrive, toSurroundings, twoLinks, visible, isIgnored, ignoredNames,
      List.mergeSort]
  have hup : twoLinks.shownIn [] [true, false] false = [] := by
    simp [shownIn, shown, arrive, toSurroundings]
  obtain ⟨tree, rfl, htree⟩ := h.eq_directory
  rw [hlower] at htree ⊢
  have ha : tree ⟨"a", none⟩ = .leaf "a" := (htree ⟨"a", none⟩ (by simp)).1
  obtain ⟨below, hback, -⟩ := (htree ⟨"up", some false⟩ (by simp)).1.eq_directory
  rw [hup] at hback
  simp [ha, hback, lowerTree]

theorem outcome_scan_twoLinks :
    (twoLinks.scan [] "top" "top" false).outcome =
      .ok (.directory "top" none [lowerTree "lib", lowerTree "out"]) := by
  have htop : twoLinks.shownIn [] [] false = [⟨"lib", some true⟩, ⟨"out", some true⟩] := by
    simp [shownIn, shown, arrive, toSurroundings, twoLinks, visible, isIgnored, ignoredNames,
      List.mergeSort]
  obtain ⟨t, ht⟩ := twoLinks.exists_unfolds [] [] ⟨"top", some false⟩
  rw [ht.outcome_scan]
  obtain ⟨tree, rfl, htree⟩ := ht.eq_directory
  rw [htop] at htree ⊢
  have hlib : tree ⟨"lib", some true⟩ = lowerTree "lib" := eq_lowerTree (htree _ (by simp)).1
  have hout : tree ⟨"out", some true⟩ = lowerTree "out" := eq_lowerTree (htree _ (by simp)).1
  simp [hlib, hout]

/-- What a link leads to is found although the directory itself is passed over. -/
theorem scan_prunes_twoLinks :
    (twoLinks.scan ["lib"] "top" "top" false).outcome =
        .ok (.directory "top" none [lowerTree "out"]) ∧
      (twoLinks.scan (["a", "lib", "a"] ++ ["up"]) "top" "top" false).outcome =
        .ok (.directory "top" none [.directory "out" none []]) := by
  obtain ⟨t, ht, hprune, -, happend⟩ :=
    Scan.scan_prunes twoLinks.surroundings ⟨"top", "top", some "top", .ok (some false)⟩ rfl
  obtain rfl : _ = t := Except.ok.inj (outcome_scan_twoLinks.symm.trans ht)
  exact ⟨(hprune ["lib"]).trans (by decide), (happend ["a", "lib", "a"] ["up"]).trans (by decide)⟩

end DirectoryGraph

end LayoutCheck
