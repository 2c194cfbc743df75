import LayoutCheck.Proofs.WellFormed
import LayoutCheck.Scan

/-!
The trees of directories that list each name once.

Such a directory has one tree for each visible entry (`EndsIn.eq_directory`), in the order of the
names (`pairwise_visible`), and it does not matter in which order it lists them (`visible_of_perm`).
-/

namespace LayoutCheck.Scan

variable {ω δ : Type} {extra : List String} {entries entries' : List (Listed ω)}

/-! ## Visible entries -/

theorem perm_visible (extra : List String) (entries : List (Listed ω)) :
    (visible extra entries).Perm (entries.filter (fun e => !isIgnored extra e.name)) :=
  List.mergeSort_perm _ _

theorem nodup_names_visible (h : (entries.map Listed.name).Nodup) :
    ((visible extra entries).map Listed.name).Nodup :=
  ((perm_visible extra entries).map Listed.name).nodup_iff.mpr
    (List.Pairwise.sublist (List.filter_sublist.map Listed.name) h)

/-- Visible entries come in strictly ascending order. -/
theorem pairwise_visible (h : (entries.map Listed.name).Nodup) :
    (visible extra entries).Pairwise (fun a b => a.name < b.name) := by
  have hle : (visible extra entries).Pairwise (fun a b => decide (a.name ≤ b.name)) :=
    List.pairwise_mergeSort (fun _ _ _ => by simpa using String.le_trans)
      (fun _ _ => by simpa using String.le_total _ _) _
  have hne : (visible extra entries).Pairwise (fun a b => a.name ≠ b.name) :=
    List.pairwise_map.mp (nodup_names_visible h)
  refine (hle.and hne).imp fun {a b} ⟨hab, hnab⟩ => ?_
  exact String.not_le.mp fun hba => hnab (String.le_antisymm (of_decide_eq_true hab) hba)

/-- The order in which a directory lists its entries does not show. -/
theorem visible_of_perm (h : entries.Perm entries') (hnames : (entries.map Listed.name).Nodup) :
    visible extra entries = visible extra entries' := by
  have hnames' : (entries'.map Listed.name).Nodup := (h.map Listed.name).nodup_iff.mp hnames
  refine List.Perm.eq_of_pairwise (fun a b _ _ hab hba => absurd hba (String.lt_asymm hab))
    (pairwise_visible hnames) (pairwise_visible hnames') ?_
  exact (perm_visible extra entries).trans
    ((h.filter _).trans (perm_visible extra entries').symm)

/-! ## Trees -/

variable [DecidableEq δ] {s : Surroundings ω δ} {v : Visit ω δ} {ancestors : List δ}
  {e : Listed ω} {name : String} {m n : Nat} {t u : Tree}

theorem EndsIn.mono (h : EndsIn s extra m v name t) (hmn : m ≤ n) : EndsIn s extra n v name t :=
  fun higher hn => h higher (Nat.le_trans hmn hn)

theorem EntryEndsIn.mono (h : EntryEndsIn s extra m ancestors e t) (hmn : m ≤ n) :
    EntryEndsIn s extra n ancestors e t := by
  obtain ⟨name, _ | on⟩ := e
  · exact h
  · exact EndsIn.mono h hmn

theorem EntryEndsIn.unique (ht : EntryEndsIn s extra n ancestors e t)
    (hu : EntryEndsIn s extra m ancestors e u) : t = u := by
  obtain ⟨name, _ | on⟩ := e
  · exact Eq.trans ht hu.symm
  · exact EndsIn.unique ht hu

/-- A walk ends in a directory of that name. -/
theorem EndsIn.name_kind_eq (ht : EndsIn s extra m v name t) (h : NestsAtMost s n v) :
    t.name = name ∧ t.kind = .directory := by
  cases n with
  | zero => exact h.elim
  | succ n =>
    obtain ⟨tree, rfl, -⟩ := ht.eq_branch_shown h
    simp [Tree.branch]

theorem EntryEndsIn.name_eq (ht : EntryEndsIn s extra m ancestors e t)
    (h : ∀ on ∈ e.way, NestsAtMost s n ⟨ancestors, on⟩) : t.name = e.name := by
  obtain ⟨name, _ | on⟩ := e
  · exact congrArg Tree.name ht
  · exact (EndsIn.name_kind_eq ht (h on rfl)).1

theorem pairwise_shown
    (hnames : ∀ entries, s.list v.way = .ok entries → (entries.map Listed.name).Nodup) :
    (shown s extra v).Pairwise (fun a b => a.name < b.name) := by
  unfold shown
  split
  · exact pairwise_visible (hnames _ (arrive_eq_listed_iff.mp ‹_›).2)
  · exact .nil

/-- A directory that lists each name once has the trees of its shown entries. -/
theorem EndsIn.eq_directory (ht : EndsIn s extra m v name t) (h : NestsAtMost s (n + 1) v)
    (hnames : ∀ entries, s.list v.way = .ok entries → (entries.map Listed.name).Nodup) :
    ∃ tree : Listed ω → Tree, t = .directory name none ((shown s extra v).map tree) ∧
      ∀ e ∈ shown s extra v,
        EntryEndsIn s extra n (v.inside s) e (tree e) ∧ (tree e).name = e.name := by
  obtain ⟨tree, rfl, htree⟩ := ht.eq_branch_shown h
  have hname : ∀ e ∈ shown s extra v, (tree e).name = e.name := fun e he =>
    (htree e he).name_eq (h.of_mem_shown he)
  have hmap : ((shown s extra v).map tree).map Tree.name = (shown s extra v).map Listed.name := by
    simpa using hname
  have hnodup : (((shown s extra v).map tree).map Tree.name).Nodup := by
    rw [hmap]
    exact List.pairwise_map.mpr ((pairwise_shown hnames).imp String.ne_of_lt)
  exact ⟨tree, by rw [Tree.branch, Tree.arrange_of_nodup hnodup],
    fun e he => ⟨htree e he, hname e he⟩⟩

end LayoutCheck.Scan
