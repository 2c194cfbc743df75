import LayoutCheck.Proofs.LookUp

/-!
Folding the texts of paths.

The names in a text are steps down (`isStep_of_mem_steps`), so the text of a folded path is read as
the names that are left and nothing else (`steps_absoluteText`). Joining two texts puts their steps
one after the other (`normalize_ofString_joinText`). So what holds of folding paths also holds of
folding their texts (`normalization_laws`).
-/

namespace LayoutCheck.Pathname

variable {p q n : String} {ns : List String} {ss : List Step}

/-- The text of the second path, taken from where the first one leads. -/
def joinText (p q : String) : String := if (ofString q).absolute then q else childPath p q

def foldText (p : String) : String := absoluteText (ofString p).names

/-! ## Names in a text -/

theorem slash_notMem_of_mem_pieces (cs : List Char) : ∀ piece ∈ pieces cs, '/' ∉ piece := by
  induction cs with
  | nil => simp [pieces]
  | cons c cs ih =>
    by_cases hc : c = '/'
    · rw [pieces, if_pos hc, List.forall_mem_cons]
      exact ⟨by simp, ih⟩
    · obtain ⟨first, rest, hpieces⟩ := List.exists_cons_of_ne_nil (pieces_ne_nil cs)
      rw [hpieces, List.forall_mem_cons] at ih
      simp only [pieces, if_neg hc, hpieces]
      refine List.forall_mem_cons.mpr ⟨?_, ih.2⟩
      rw [List.mem_cons, not_or]
      exact ⟨Ne.symm hc, ih.1⟩

theorem isStep_of_stepOf? {piece : List Char} (hslash : '/' ∉ piece)
    (h : stepOf? piece = some (.down n)) : IsStep n := by
  unfold stepOf? at h
  split at h
  · cases h
  · split at h
    · cases h
    · split at h
      · cases h
      · rename_i hempty hstay hup
        obtain rfl : String.ofList piece = n := by simpa using h
        refine ⟨?_, ?_, ?_, ?_⟩
        · exact fun he => hempty (String.ofList_injective he)
        · exact fun he => hstay (String.ofList_injective he)
        · exact fun he => hup (String.ofList_injective he)
        · simpa using hslash

theorem isStep_of_mem_steps (h : .down n ∈ (ofString p).steps) : IsStep n := by
  obtain ⟨piece, hpiece, hstep⟩ := List.mem_filterMap.mp h
  exact isStep_of_stepOf? (slash_notMem_of_mem_pieces _ piece hpiece) hstep

/-- Folding keeps names that were there or come as steps down, and adds none. -/
theorem mem_or_down_mem_of_mem_fold (h : n ∈ fold ns ss) : n ∈ ns ∨ .down n ∈ ss := by
  fun_induction fold ns ss with
  | case1 ns => exact .inl h
  | case2 ns ss ih => exact (ih h).imp_right (List.mem_cons_of_mem _)
  | case3 ns ss ih => exact (ih h).imp List.mem_of_mem_tail (List.mem_cons_of_mem _)
  | case4 ns m ss ih =>
    rcases ih h with hmem | hmem
    · rcases List.mem_cons.mp hmem with rfl | hmem
      · exact .inr (List.mem_cons_self ..)
      · exact .inl hmem
    · exact .inr (List.mem_cons_of_mem _ hmem)

theorem isStep_of_mem_names (h : n ∈ (ofString p).names) : IsStep n := by
  rw [names, List.mem_reverse] at h
  rcases mem_or_down_mem_of_mem_fold h with hmem | hmem
  · cases hmem
  · exact isStep_of_mem_steps hmem

/-! ## Reading a folded text -/

theorem filterMap_stepOf?_intercalate (h : ∀ n ∈ ns, IsStep n) :
    (pieces ("/".intercalate ns).toList).filterMap stepOf? = ns.map .down := by
  induction ns with
  | nil => rfl
  | cons n ns ih =>
    obtain ⟨hn, hns⟩ := List.forall_mem_cons.mp h
    cases ns with
    | nil => simpa using filterMap_stepOf?_pieces hn
    | cons m ns =>
      have htext : ("/".intercalate (n :: m :: ns)).toList =
          n.toList ++ '/' :: ("/".intercalate (m :: ns)).toList := by
        simp [String.intercalate_cons_cons]
      rw [htext, pieces_append_slash, List.filterMap_append, filterMap_stepOf?_pieces hn, ih hns]
      rfl

theorem absolute_absoluteText (ns : List String) : (ofString (absoluteText ns)).absolute := by
  simp [ofString, absoluteText]

theorem steps_absoluteText (h : ∀ n ∈ ns, IsStep n) :
    (ofString (absoluteText ns)).steps = ns.map .down := by
  have htext : (absoluteText ns).toList = [] ++ '/' :: ("/".intercalate ns).toList := by
    simp [absoluteText]
  rw [ofString, htext, pieces_append_slash, List.filterMap_append,
    filterMap_stepOf?_intercalate h]
  rfl

/-- The text of a folded path is read as just its names. -/
theorem names_absoluteText (h : ∀ n ∈ ns, IsStep n) : (ofString (absoluteText ns)).names = ns := by
  rw [names, steps_absoluteText h, fold_down]
  simp

theorem foldText_foldText (p : String) : foldText (foldText p) = foldText p := by
  rw [foldText, foldText, names_absoluteText fun _ => isStep_of_mem_names]

/-! ## Joining texts -/

theorem normalize_congr {p q : Pathname} (ha : p.absolute = q.absolute) (hs : p.steps = q.steps) :
    p.normalize = q.normalize := by
  rw [normalize, normalize, names, names, ha, hs]

theorem ofString_childPath_append (p q : String) (hq : ¬ (ofString q).absolute) :
    (ofString (childPath p q)).absolute = (ofString p).absolute ∧
      (ofString (childPath p q)).steps = (ofString p).steps ++ (ofString q).steps := by
  by_cases hp : p = ""
  · subst hp
    have htext : childPath "" q = q := by simp [childPath]
    have hrelative : (ofString q).absolute = false := by simpa using hq
    rw [htext, hrelative]
    exact ⟨rfl, rfl⟩
  · obtain ⟨cs, hcs, hsteps, hhead⟩ := exists_toList_childPath hp q
    refine ⟨?_, ?_⟩
    · simp only [ofString, hcs, hhead]
    · rw [← hsteps]
      simp [ofString, hcs, pieces_append_slash]

/-- Reading joined texts is joining what is read, up to folding. -/
theorem normalize_ofString_joinText (p q : String) :
    (ofString (joinText p q)).normalize = ((ofString p).join (ofString q)).normalize := by
  unfold joinText join
  split
  · rfl
  · rename_i hq
    obtain ⟨habsolute, hsteps⟩ := ofString_childPath_append p q hq
    exact normalize_congr habsolute hsteps

/-- A path can be folded before another one is joined to it, also as a text. -/
theorem foldText_joinText (hp : (ofString p).absolute) (q : String) :
    foldText (joinText p q) = foldText (joinText (foldText p) q) := by
  have hfolded : (ofString (foldText p)).normalize = (ofString p).normalize := by
    rw [foldText, normalize, names_absoluteText fun _ => isStep_of_mem_names,
      absolute_absoluteText, normalize, hp]
  have hjoined : (ofString (joinText p q)).normalize =
      (ofString (joinText (foldText p) q)).normalize := by
    rw [normalize_ofString_joinText, normalize_ofString_joinText, normalize_join, ← hfolded,
      ← normalize_join]
  have hnames := congrArg names hjoined
  rw [normalize, normalize, names_ofNames, names_ofNames] at hnames
  rw [foldText, foldText, hnames]

/--
Folding an absolute path gives an absolute path of steps down only, and folding this changes
nothing. Joining another path, relative or absolute, and folding then is the same as folding before
and after. All this holds of the paths and of their texts: the text of a folded path is read as that
path.
-/
theorem normalization_laws (p q : String) (hp : (ofString p).absolute) :
    let folded := (ofString p).normalize
    let text := foldText p
    (folded.absolute ∧ ∀ s ∈ folded.steps, ∃ n, s = .down n ∧ IsStep n) ∧
    folded.normalize = folded ∧
    ((ofString p).join (ofString q)).normalize = (folded.join (ofString q)).normalize ∧
    ((ofString text).absolute ∧ (ofString text).steps = folded.steps) ∧
    foldText text = text ∧
    foldText (joinText p q) = foldText (joinText text q) := by
  intro folded text
  have hsteps : ∀ n ∈ (ofString p).names, IsStep n := fun _ => isStep_of_mem_names
  refine ⟨⟨hp, ?_⟩, normalize_normalize _, normalize_join _ _,
    ⟨absolute_absoluteText _, steps_absoluteText hsteps⟩, foldText_foldText p,
    foldText_joinText hp q⟩
  intro s hs
  obtain ⟨n, hn, rfl⟩ := List.mem_map.mp hs
  exact ⟨n, rfl, hsteps n hn⟩

/-- Steps up are taken back as far as the root, also those of the path that is joined. -/
theorem normalization_laws_above_root :
    let p := "/../a//./b/../c/"
    let q := "./../../../d/..e/."
    (ofString p).absolute ∧ foldText p = "/a/c" ∧ foldText "/a/c" = "/a/c" ∧
      joinText p q = "/../a//./b/../c/./../../../d/..e/." ∧
      foldText (joinText p q) = foldText (joinText "/a/c" q) ∧
      foldText (joinText p q) = "/d/..e" := by
  intro p q
  have hp : (ofString p).absolute := by decide
  have htext : foldText p = "/a/c" := by decide
  obtain ⟨_, _, _, _, hfold, hjoin⟩ := normalization_laws p q hp
  rw [htext] at hfold hjoin
  exact ⟨hp, htext, hfold, by decide, hjoin, by decide⟩

end LayoutCheck.Pathname
