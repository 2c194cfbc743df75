import LayoutCheck.EntryPath

/-!
Names and the paths that join them.

A path made of names without slashes can be taken apart again (`namesOf_joinNames`), so different
lists of names make different paths (`joinNames_inj`). What paths say of each other as texts is what
their names say: the parent has all names but the last (`parentPath?_joinNames`), which is what
stands at the end (`lastName_joinNames`), and a path is below another when its names go on from
those of the other (`isBelow_joinNames`). Of any text, `parentPath?` and `lastName` are what stands
before and after the last slash (`parentPath?_eq_some_iff`, `lastName_eq_iff`).
-/

namespace LayoutCheck

/-- A name that can stand between the slashes of a path. -/
def IsName (name : String) : Prop := name ≠ "" ∧ '/' ∉ name.toList

instance (name : String) : Decidable (IsName name) := inferInstanceAs (Decidable (_ ∧ _))

def namesOf (path : String) : List String := (path.toList.splitOn '/').map String.ofList

@[simp] theorem joinNames_nil (root : String) : joinNames root [] = root := rfl

@[simp] theorem joinNames_cons (root n : String) (ns : List String) :
    joinNames root (n :: ns) = joinNames (joinPath root n) ns := rfl

theorem joinNames_append (root : String) (ns ms : List String) :
    joinNames root (ns ++ ms) = joinNames (joinNames root ns) ms :=
  List.foldl_append

theorem joinNames_eq_intercalate {root : String} (hr : root ≠ "") (ns : List String) :
    joinNames root ns = "/".intercalate (root :: ns) := by
  induction ns generalizing root with
  | nil => simp
  | cons n ns ih =>
    have hn : joinPath root n = root ++ "/" ++ n := joinPath_of_ne hr n
    have hne : root ++ "/" ++ n ≠ "" := by simp [String.append_eq_empty_iff]
    rw [joinNames_cons, hn, ih hne, String.intercalate_cons_append, String.intercalate_cons_cons]

/-- Taking a joined path apart gives back the names. -/
theorem namesOf_joinNames {root : String} (hr : IsName root) {ns : List String}
    (hns : ∀ n ∈ ns, IsName n) : namesOf (joinNames root ns) = root :: ns := by
  have hslash : ∀ l ∈ (root :: ns).map String.toList, '/' ∉ l := by
    intro l hl
    obtain ⟨n, hn, rfl⟩ := List.mem_map.mp hl
    rcases List.mem_cons.mp hn with rfl | hn
    · exact hr.2
    · exact (hns n hn).2
  rw [joinNames_eq_intercalate hr.1, namesOf, String.toList_intercalate,
    show "/".toList = ['/'] from rfl, List.splitOn_intercalate _ hslash (by simp)]
  simp [Function.comp_def]

/-- Joining what a path was taken apart into gives back the path. -/
theorem joinNames_of_namesOf {path root : String} {ns : List String} (hr : root ≠ "")
    (h : namesOf path = root :: ns) : joinNames root ns = path := by
  rw [joinNames_eq_intercalate hr, ← h, namesOf]
  apply String.toList_inj.mp
  rw [String.toList_intercalate, List.map_map]
  simp [Function.comp_def]

theorem joinNames_inj {root : String} (hr : IsName root) {ns ms : List String}
    (hns : ∀ n ∈ ns, IsName n) (hms : ∀ n ∈ ms, IsName n) :
    joinNames root ns = joinNames root ms ↔ ns = ms := by
  constructor
  · intro h
    have := congrArg namesOf h
    rw [namesOf_joinNames hr hns, namesOf_joinNames hr hms] at this
    exact (List.cons.inj this).2
  · rintro rfl
    rfl

/-- Paths that start with the first name are as different as the names. -/
theorem joinNames_empty_inj {ns ms : List String} (hne : ns ≠ []) (hme : ms ≠ [])
    (hns : ∀ n ∈ ns, IsName n) (hms : ∀ n ∈ ms, IsName n) :
    joinNames "" ns = joinNames "" ms ↔ ns = ms := by
  constructor
  · intro h
    obtain ⟨n, ns, rfl⟩ := List.exists_cons_of_ne_nil hne
    obtain ⟨m, ms, rfl⟩ := List.exists_cons_of_ne_nil hme
    obtain ⟨hn, hns⟩ := List.forall_mem_cons.mp hns
    obtain ⟨hm, hms⟩ := List.forall_mem_cons.mp hms
    have := congrArg namesOf h
    rwa [joinNames_cons, joinNames_cons, joinPath_empty, joinPath_empty, namesOf_joinNames hn hns,
      namesOf_joinNames hm hms] at this
  · rintro rfl
    rfl

/-! ## The text of a path -/

variable {path above name : String}

theorem joinNames_ne_empty {root : String} (hr : root ≠ "") (ns : List String) :
    joinNames root ns ≠ "" := by
  induction ns generalizing root with
  | nil => exact hr
  | cons n ns ih =>
    refine ih ?_
    simp [joinPath_of_ne hr, String.append_eq_empty_iff]

theorem reverse_append_slash (above name : String) : (above ++ "/" ++ name).toList.reverse =
    name.toList.reverse ++ '/' :: above.toList.reverse := by
  simp

theorem ne_slash_of_mem_reverse {n : String} (hn : '/' ∉ n.toList) :
    ∀ c ∈ n.toList.reverse, decide (c ≠ '/') = true := by
  intro c hc
  rw [List.mem_reverse] at hc
  exact decide_eq_true fun h => hn (h ▸ hc)

theorem parentPath?_append_slash (above : String) (hn : '/' ∉ name.toList) :
    parentPath? (above ++ "/" ++ name) = some above := by
  rw [parentPath?, reverse_append_slash,
    List.dropWhile_append_of_pos (ne_slash_of_mem_reverse hn)]
  simp

theorem lastName_append_slash (above : String) (hn : '/' ∉ name.toList) :
    lastName (above ++ "/" ++ name) = name := by
  rw [lastName, reverse_append_slash,
    List.takeWhile_append_of_pos (ne_slash_of_mem_reverse hn)]
  simp

theorem slash_notMem_lastName (path : String) : '/' ∉ (lastName path).toList := by
  intro h
  rw [lastName, String.toList_ofList, List.mem_reverse] at h
  have hall : (path.toList.reverse.takeWhile (· ≠ '/')).all (· ≠ '/') = true := List.all_takeWhile
  simpa using List.all_eq_true.mp hall _ h

/-- A path is what stands before its last slash, that slash and its last name. -/
theorem append_lastName (h : parentPath? path = some above) :
    above ++ "/" ++ lastName path = path := by
  have hsplit := List.takeWhile_append_dropWhile (p := (· ≠ '/')) (l := path.toList.reverse)
  rw [parentPath?] at h
  split at h
  · simp at h
  · rename_i c before hrest
    obtain rfl : String.ofList before.reverse = above := Option.some.inj h
    have hne : path.toList.reverse.dropWhile (· ≠ '/') ≠ [] := by
      rw [hrest]
      exact List.cons_ne_nil c before
    have hslash := List.head_dropWhile_not (· ≠ '/') hne
    simp only [hrest, List.head_cons, decide_eq_false_iff_not, Decidable.not_not] at hslash
    have htext := congrArg List.reverse hsplit
    rw [hrest, hslash, List.reverse_reverse, List.reverse_append, List.reverse_cons,
      List.append_assoc] at htext
    apply String.toList_inj.mp
    rw [← htext, lastName]
    simp

/-- Without a slash all of the path is its last name. -/
theorem lastName_of_parentPath?_eq_none (h : parentPath? path = none) : lastName path = path := by
  have hsplit := List.takeWhile_append_dropWhile (p := (· ≠ '/')) (l := path.toList.reverse)
  rw [parentPath?] at h
  split at h
  · rename_i hrest
    rw [hrest, List.append_nil] at hsplit
    rw [lastName, hsplit]
    simp
  · simp at h

theorem parentPath?_eq_some_iff :
    parentPath? path = some above ↔ ∃ name, '/' ∉ name.toList ∧ path = above ++ "/" ++ name := by
  constructor
  · intro h
    exact ⟨lastName path, slash_notMem_lastName path, (append_lastName h).symm⟩
  · rintro ⟨name, hn, rfl⟩
    exact parentPath?_append_slash above hn

theorem lastName_eq_iff (hn : '/' ∉ name.toList) :
    lastName path = name ↔ path = name ∨ ∃ above, path = above ++ "/" ++ name := by
  constructor
  · rintro rfl
    cases h : parentPath? path with
    | none => exact .inl (lastName_of_parentPath?_eq_none h).symm
    | some above => exact .inr ⟨above, (append_lastName h).symm⟩
  · rintro (rfl | ⟨above, rfl⟩)
    · refine lastName_of_parentPath?_eq_none (Option.eq_none_iff_forall_ne_some.mpr ?_)
      intro above h
      obtain ⟨rest, _, rfl⟩ := parentPath?_eq_some_iff.mp h
      simp at hn
    · exact lastName_append_slash above hn

theorem parentPath?_joinPath {above n : String} (ha : above ≠ "") (hn : '/' ∉ n.toList) :
    parentPath? (joinPath above n) = some above :=
  joinPath_of_ne ha n ▸ parentPath?_append_slash above hn

/-- A path with names below it ends with the last of them. -/
theorem joinNames_eq_joinPath (root : String) {ns : List String} (hne : ns ≠ []) :
    joinNames root ns = joinPath (joinNames root ns.dropLast) (ns.getLast hne) := by
  rw [← joinNames_nil (joinPath _ _), ← joinNames_cons, ← joinNames_append,
    List.dropLast_concat_getLast hne]

/-- The path above joins all names but the last. -/
theorem parentPath?_joinNames {root : String} (hr : IsName root) {ns : List String}
    (hns : ∀ n ∈ ns, IsName n) (hne : ns ≠ []) :
    parentPath? (joinNames root ns) = some (joinNames root ns.dropLast) := by
  have hlast : IsName (ns.getLast hne) := hns _ (List.getLast_mem hne)
  have habove : joinNames root ns.dropLast ≠ "" := joinNames_ne_empty hr.1 _
  rw [joinNames_eq_joinPath root hne]
  exact parentPath?_joinPath habove hlast.2

theorem lastName_joinPath {above n : String} (ha : above ≠ "") (hn : '/' ∉ n.toList) :
    lastName (joinPath above n) = n :=
  joinPath_of_ne ha n ▸ lastName_append_slash above hn

/-- After the last slash of a path stands the last name. -/
theorem lastName_joinNames {root : String} (hr : root ≠ "") {ns : List String}
    (hns : ∀ n ∈ ns, IsName n) (hne : ns ≠ []) :
    lastName (joinNames root ns) = ns.getLast hne := by
  have hlast : IsName (ns.getLast hne) := hns _ (List.getLast_mem hne)
  rw [joinNames_eq_joinPath root hne]
  exact lastName_joinPath (joinNames_ne_empty hr _) hlast.2

theorem namesOf_append_slash (above rest : String) :
    namesOf (above ++ "/" ++ rest) = namesOf above ++ namesOf rest := by
  have htext : (above ++ "/" ++ rest).toList = above.toList ++ '/' :: rest.toList := by simp
  rw [namesOf, htext, List.splitOn_append_cons_self, List.map_append]
  rfl

/-- A path is below another when its names go on from those of the other. -/
theorem isBelow_joinNames {root : String} (hr : IsName root) {ns ms : List String}
    (hns : ∀ n ∈ ns, IsName n) (hms : ∀ n ∈ ms, IsName n) :
    isBelow (joinNames root ns) (joinNames root ms) ↔ ∃ k ks, ns = ms ++ k :: ks := by
  rw [isBelow_iff]
  constructor
  · rintro ⟨rest, h⟩
    have hpath : joinNames root ns = joinNames root ms ++ "/" ++ String.ofList rest := by
      apply String.toList_inj.mp
      simp [h]
    have hnames := namesOf_append_slash (joinNames root ms) (String.ofList rest)
    rw [← hpath, namesOf_joinNames hr hns, namesOf_joinNames hr hms, List.cons_append] at hnames
    have hrest : namesOf (String.ofList rest) ≠ [] := by
      simp [namesOf, List.splitOn_ne_nil]
    obtain ⟨k, ks, hks⟩ := List.exists_cons_of_ne_nil hrest
    exact ⟨k, ks, hks ▸ (List.cons.inj hnames).2⟩
  · rintro ⟨k, ks, rfl⟩
    have habove : joinNames root ms ≠ "" := joinNames_ne_empty hr.1 ms
    have hstep : joinPath (joinNames root ms) k ≠ "" := by
      simp [joinPath_of_ne habove, String.append_eq_empty_iff]
    rw [joinNames_append, joinNames_cons, joinNames_eq_intercalate hstep, joinPath_of_ne habove,
      String.intercalate_cons_append]
    exact ⟨("/".intercalate (k :: ks)).toList, by simp⟩

/-- A path is another one or below it when the names of that come first among its own. -/
theorem eq_or_isBelow_joinNames {root : String} (hr : IsName root) {ns ms : List String}
    (hns : ∀ n ∈ ns, IsName n) (hms : ∀ n ∈ ms, IsName n) :
    joinNames root ns = joinNames root ms ∨ isBelow (joinNames root ns) (joinNames root ms) ↔
      ms <+: ns := by
  rw [joinNames_inj hr hns hms, isBelow_joinNames hr hns hms]
  constructor
  · rintro (rfl | ⟨k, ks, rfl⟩)
    · exact List.prefix_rfl
    · exact List.prefix_append _ _
  · rintro ⟨_ | ⟨k, ks⟩, rfl⟩
    · exact .inl (List.append_nil _)
    · exact .inr ⟨k, ks, rfl⟩

end LayoutCheck
