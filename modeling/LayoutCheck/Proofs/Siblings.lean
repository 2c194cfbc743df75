import LayoutCheck.Proofs.Conservation
import LayoutCheck.Proofs.Rearrangement
import Mathlib.Data.Finset.Card
import Mathlib.Data.List.Induction

/-!
Which entries a directory keeps of those that it is given.

The names come in the order in which each was given first (`childNames_branch`), a name leads to the
last entry that was given for it (`child?_branch`), and there is a warning for every other one
(`repeatWarnings_eq_replicate`). So leaving out an entry that another one of its name follows, or
rearranging the entries one by one, rearranges the directory (`rearranged_branch_of_shadowed`,
`rearranged_branch`).
-/

namespace LayoutCheck.Tree

variable {t u : Tree} {cs ds : List Tree}

/-! ## The last entry of a name -/

theorem arrange_concat (entries : List Tree) (e : Tree) :
    arrange (entries ++ [e]) = place e (arrange entries) := by
  rw [arrange, List.foldl_append]
  rfl

theorem map_name_place_eq (e : Tree) (cs : List Tree) :
    (place e cs).map name =
      if e.name ∈ cs.map name then cs.map name else cs.map name ++ [e.name] := by
  induction cs with
  | nil => rfl
  | cons c cs ih =>
    by_cases h : c.name = e.name
    · simp [place, h]
    · rw [place, if_neg h, List.map_cons, ih, List.map_cons]
      by_cases hmem : e.name ∈ cs.map name
      · simp [hmem]
      · simp [hmem, Ne.symm h]

theorem eraseDups_concat (ns : List String) (n : String) :
    (ns ++ [n]).eraseDups = if n ∈ ns then ns.eraseDups else ns.eraseDups ++ [n] := by
  rw [List.eraseDups_append]
  by_cases h : n ∈ ns
  · simp [List.removeAll, h]
  · simp [List.removeAll, h, List.eraseDups_cons]

/-- The names come in the order in which each was given first. -/
theorem childNames_branch (n : String) (entries : List Tree) :
    (branch n entries).childNames = (entries.map name).eraseDups := by
  show (arrange entries).map name = _
  induction entries using List.reverseRecOn with
  | nil => rfl
  | append_singleton entries e ih =>
    rw [arrange_concat, map_name_place_eq, ih, List.map_append, List.map_singleton,
      eraseDups_concat]
    simp only [List.mem_eraseDups]

theorem find?_arrange (entries : List Tree) (n : String) :
    (arrange entries).find? (·.name = n) = (entries.filter (·.name = n)).getLast? := by
  induction entries using List.reverseRecOn with
  | nil => rfl
  | append_singleton entries e ih =>
    rw [arrange_concat, find?_place, ih, List.filter_append]
    by_cases h : e.name = n
    · simp [h]
    · simp [h, Ne.symm h]

/-- A name leads to the last entry that was given for it. -/
theorem child?_branch (n : String) (entries : List Tree) (m : String) :
    (branch n entries).child? m = (entries.filter (·.name = m)).getLast? :=
  find?_arrange entries m

/-! ## The warnings -/

def repeatWarning (directory : String) : Message :=
  ⟨.warn, s!"Duplicate entry under '{directory}', keeping the last declaration"⟩

theorem repeatWarnings_go_eq_replicate (directory : String) (seen : List String)
    (entries : List Tree) : ∃ k,
      repeatWarnings.go directory seen entries = List.replicate k (repeatWarning directory) ∧
        k + (seen ++ entries.map name).toFinset.card = entries.length + seen.toFinset.card := by
  induction entries generalizing seen with
  | nil => exact ⟨0, rfl, by simp⟩
  | cons e es ih =>
    rw [repeatWarnings.go, List.length_cons, List.map_cons]
    split
    · rename_i hmem
      obtain ⟨k, hgo, hcount⟩ := ih seen
      have hnames : (seen ++ e.name :: es.map name).toFinset =
          (seen ++ es.map name).toFinset := by
        ext m
        simp only [List.mem_toFinset, List.mem_append, List.mem_cons]
        exact ⟨by rintro (h | rfl | h) <;> simp [*], by tauto⟩
      refine ⟨k + 1, by rw [hgo]; rfl, ?_⟩
      rw [hnames]
      omega
    · rename_i hnew
      obtain ⟨k, hgo, hcount⟩ := ih (e.name :: seen)
      have hnames : (seen ++ e.name :: es.map name).toFinset =
          (e.name :: seen ++ es.map name).toFinset := by
        ext m
        simp only [List.mem_toFinset, List.mem_append, List.mem_cons]
        tauto
      have hseen : (e.name :: seen).toFinset.card = seen.toFinset.card + 1 := by
        rw [List.toFinset_cons, Finset.card_insert_of_notMem (by simpa using hnew)]
      refine ⟨k, hgo, ?_⟩
      rw [hnames, hcount, hseen]
      omega

/-- There is a warning for each entry but one of each name. -/
theorem repeatWarnings_eq_replicate (directory : String) (entries : List Tree) :
    repeatWarnings directory entries =
      List.replicate (entries.length - (entries.map name).toFinset.card)
        (repeatWarning directory) := by
  obtain ⟨k, hgo, hcount⟩ := repeatWarnings_go_eq_replicate directory [] entries
  have hk : k = entries.length - (entries.map name).toFinset.card := by
    rw [List.nil_append, List.toFinset_nil, Finset.card_empty] at hcount
    omega
  rw [repeatWarnings, hgo, hk]

/-! ## Directories that are the same but for the order -/

/-- What is arranged depends on the last entry of each name only, but for its order. -/
theorem perm_arrange
    (h : ∀ n, (cs.filter (·.name = n)).getLast? = (ds.filter (·.name = n)).getLast?) :
    (arrange cs).Perm (arrange ds) := by
  have hmem : ∀ es c, c ∈ arrange es ↔ (es.filter (·.name = c.name)).getLast? = some c := by
    intro es c
    rw [← find?_arrange]
    exact ⟨find?_of_nodup (nodup_names_arrange es), List.mem_of_find?_eq_some⟩
  refine (List.perm_ext_iff_of_nodup (nodup_names_arrange cs).of_map
    (nodup_names_arrange ds).of_map).mpr fun c => ?_
  rw [hmem, hmem, h]

/-- An entry that another one of its name follows can be left out. -/
theorem rearranged_branch_of_shadowed (h : t.name = u.name) (n : String)
    (left between right : List Tree) :
    (branch n (left ++ t :: (between ++ u :: right))).Rearranged
      (branch n (left ++ (between ++ u :: right))) := by
  refine .directory (perm_arrange fun m => ?_) (List.forall₂_refl _)
  by_cases hm : u.name = m
  · have hlast : ∀ front : List Tree,
        ((front ++ u :: right).filter (·.name = m)).getLast? =
          (u :: right.filter (·.name = m)).getLast? := by
      intro front
      rw [List.filter_append, List.filter_cons_of_pos (by simpa using hm),
        List.getLast?_append_of_ne_nil _ (List.cons_ne_nil _ _)]
    have hwith := hlast (left ++ t :: between)
    have hwithout := hlast (left ++ between)
    rw [List.append_assoc, List.cons_append] at hwith
    rw [List.append_assoc] at hwithout
    rw [hwith, hwithout]
  · simp [List.filter_append, h, hm]

theorem forall₂_place (htu : t.Rearranged u) (h : List.Forall₂ Rearranged cs ds) :
    List.Forall₂ Rearranged (place t cs) (place u ds) := by
  induction h with
  | nil => exact .cons htu .nil
  | cons hcd hrest ih =>
    rw [place, place, ← hcd.name_eq, ← htu.name_eq]
    split
    · exact .cons htu hrest
    · exact .cons hcd ih

/-- Entries that are rearranged one by one make a rearranged directory. -/
theorem rearranged_branch (h : List.Forall₂ Rearranged cs ds) (n : String) :
    (branch n cs).Rearranged (branch n ds) := by
  suffices hfold : ∀ ps qs, List.Forall₂ Rearranged ps qs →
      List.Forall₂ Rearranged (cs.foldl (fun placed e => place e placed) ps)
        (ds.foldl (fun placed e => place e placed) qs) from
    .directory (.refl _) (hfold [] [] .nil)
  induction h with
  | nil => exact fun _ _ hpq => hpq
  | cons hcd _ ih => exact fun _ _ hpq => ih _ _ (forall₂_place hcd hpq)

/-- Rearranged trees have the same number of entries. -/
theorem Rearranged.descendantCount_eq (h : t.Rearranged u) :
    t.descendantCount = u.descendantCount := by
  induction t using Tree.induction generalizing u with
  | file n d =>
    cases h
    rfl
  | directory n d cs ih =>
    cases h with
    | @directory _ _ _ _ ms os hperm hall =>
      have hcounts : ∀ {ms os : List Tree}, List.Forall₂ Rearranged ms os → (∀ m ∈ ms, m ∈ cs) →
          ms.map (fun c => 1 + c.descendantCount) = os.map (fun c => 1 + c.descendantCount) := by
        intro ms os hall hms
        induction hall with
        | nil => rfl
        | cons hmo _ ihall =>
          obtain ⟨hm, hms⟩ := List.forall_mem_cons.mp hms
          rw [List.map_cons, List.map_cons, ih _ hm hmo, ihall hms]
      rw [descendantCount_eq_sum, descendantCount_eq_sum, children_directory, children_directory,
        (hperm.map _).sum_eq, hcounts hall fun m hm => hperm.mem_iff.mpr hm]

end LayoutCheck.Tree
