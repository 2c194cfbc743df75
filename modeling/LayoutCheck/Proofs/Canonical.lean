import LayoutCheck.Proofs.Written

/-!
Where no link is, the absolute path can be found without looking.

`Leads` goes along a path step by step, with nothing but what is at each place. In a tree without
links the system resolves a path to the place to which it leads and to no other
(`resolve_eq_ok_iff_leads`). On the way the place is always what folding leaves of the steps so far
(`Leads.fold_eq`), so this is the place that folding names (`canonical_eq_folded`).
-/

namespace LayoutCheck

/-- The entry is no link, and there is none at any place below it. -/
def Entry.LinkFree (e : Entry) : Prop :=
  ∀ (p : Place) (target : String), e.at? p ≠ some (.link target)

theorem Entry.linkFree_file (content : ByteArray) : (file content).LinkFree := by
  intro p target h
  cases p <;> simp [at?] at h

theorem Entry.linkFree_directory {entries : List (String × Entry)}
    (h : ∀ e ∈ entries, e.2.LinkFree) : (directory entries).LinkFree := by
  intro p target hp
  cases p with
  | nil => simp at hp
  | cons n p =>
    rw [at?_directory_cons] at hp
    obtain ⟨e, hfind, hp⟩ := Option.bind_eq_some_iff.mp hp
    obtain ⟨d, hd, rfl⟩ := Option.map_eq_some_iff.mp hfind
    exact h d (List.mem_of_find?_eq_some hd) p target hp

namespace Trail

variable {root : Entry} {t : Trail} {n : String}

theorem Within.sizeBelow (h : t.Within root) (n : String) :
    t.sizeBelow n = (absoluteText (t.place ++ [n])).utf8ByteSize := by
  have hslash : "/".utf8ByteSize = 1 := rfl
  induction h generalizing n with
  | nil => simp [Trail.sizeBelow, absoluteText, hslash]
  | @down t m e entries ht hdir hfind ih =>
    have hsize : (t.down m e).sizeBelow n = t.sizeBelow m + 1 + n.utf8ByteSize := rfl
    have hne : t.place ++ [m] ≠ [] := by simp
    rw [hsize, ih, place_down, absoluteText_concat hne]
    simp [String.utf8ByteSize_append, hslash]

theorem Within.directory_iff (h : t.Within root) :
    root.labelAt? t.place = some .directory ↔ ∃ entries, t.entry root = .directory entries := by
  rw [h.labelAt?, Option.some.injEq, Entry.label_eq_directory]

/-- What is directly below the end of a walk is listed there. -/
theorem Within.isSome_at?_below (h : t.Within root) :
    (root.at? (t.place ++ [n])).isSome ↔
      ∃ entries e, t.entry root = .directory entries ∧ Entry.find? entries n = some e := by
  rw [Entry.at?_append, h.at?, Option.bind_some]
  cases hentry : t.entry root with
  | file | link => simp [Entry.at?]
  | directory entries =>
    rw [Entry.at?_directory_cons]
    cases hfind : Entry.find? entries n <;> simp [hfind]

end Trail

namespace FileSystem

/--
The steps lead from one place to another. A step that stays or goes up begins in a directory, and
there is nothing above the root. A step down comes to an entry that is there, so it begins in a
directory too, and it only passes where it may.
-/
inductive Leads (root : Entry) (passable : Place → Prop) :
    Place → List Pathname.Step → Place → Prop where
  | nil (p : Place) : Leads root passable p [] p
  | stay {p q : Place} {ss : List Pathname.Step} : root.labelAt? p = some .directory →
      Leads root passable p ss q → Leads root passable p (.stay :: ss) q
  | up {p q : Place} {ss : List Pathname.Step} : root.labelAt? p = some .directory →
      Leads root passable p.dropLast ss q → Leads root passable p (.up :: ss) q
  | down {p q : Place} {n : String} {ss : List Pathname.Step} :
      (root.at? (p ++ [n])).isSome → passable (p ++ [n]) →
      Leads root passable (p ++ [n]) ss q → Leads root passable p (.down n :: ss) q

def Fits (reach : Reach) (p : Place) : Prop :=
  (∀ n ∈ p.getLast?, n.utf8ByteSize ≤ maxNameSize) ∧ reach (absoluteText p).utf8ByteSize

section Walks

variable {root : Entry} {reach : Reach} {passable : Place → Prop} {links k : Nat} {t u : Trail}
  {p q : Place} {ss : List Pathname.Step} {n : String}

/-- On the way the place is what folding leaves of the steps. -/
theorem Leads.fold_eq (h : Leads root passable p ss q) :
    Pathname.fold p.reverse ss = q.reverse := by
  induction h with
  | nil p => rfl
  | stay _ _ ih => exact ih
  | up _ _ ih =>
    rw [Pathname.fold, List.tail_reverse]
    exact ih
  | down _ _ _ ih => simpa [Pathname.fold] using ih

theorem Leads.imp {passable' : Place → Prop} (hp : ∀ p, passable p → passable' p)
    (h : Leads root passable p ss q) : Leads root passable' p ss q := by
  induction h with
  | nil p => exact .nil p
  | stay hdir _ ih => exact .stay hdir ih
  | up hdir _ ih => exact .up hdir ih
  | down hthere hpass _ ih => exact .down hthere (hp _ hpass) ih

theorem fits_concat : Fits reach (p ++ [n]) ↔
    n.utf8ByteSize ≤ maxNameSize ∧ reach (absoluteText (p ++ [n])).utf8ByteSize := by
  simp [Fits]

/-- A walk that meets no link leads where its steps lead. -/
theorem leads_of_advance (ht : t.Within root) (h : advance root reach t ss = .arrived u) :
    Leads root (Fits reach) t.place ss u.place := by
  fun_induction advance root reach t ss with
  | case1 t =>
    obtain rfl := Advance.arrived.inj h
    exact .nil _
  | case2 t ss entries hdir ih => exact .stay (ht.directory_iff.mpr ⟨entries, hdir⟩) (ih ht h)
  | case3 t ss entries hdir ih =>
    refine .up (ht.directory_iff.mpr ⟨entries, hdir⟩) ?_
    rw [← Trail.place_tail]
    exact ih ht.tail h
  | case7 t ss entries hdir n hin e hlink hfind ih =>
    have hbelow := ih (ht.down hdir hfind) h
    rw [Trail.place_down] at hbelow
    refine .down (ht.isSome_at?_below.mpr ⟨entries, e, hdir, hfind⟩) (fits_concat.mpr ?_) hbelow
    rw [← ht.sizeBelow]
    simpa using hin
  | case4 | case5 | case6 | case8 => cases h

/-- Where no link is, a walk comes to where its steps lead. -/
theorem exists_advance_of_leads (hfree : root.LinkFree) (ht : t.Within root)
    (h : Leads root (Fits reach) t.place ss q) :
    ∃ u, advance root reach t ss = .arrived u ∧ u.place = q := by
  generalize hp : t.place = p at h
  induction h generalizing t with
  | nil p => exact ⟨t, rfl, hp⟩
  | stay hlabel _ ih =>
    subst hp
    obtain ⟨entries, hdir⟩ := ht.directory_iff.mp hlabel
    rw [advance_stay hdir]
    exact ih ht rfl
  | up hlabel _ ih =>
    subst hp
    obtain ⟨entries, hdir⟩ := ht.directory_iff.mp hlabel
    rw [advance_up hdir]
    exact ih ht.tail (Trail.place_tail t)
  | @down p q n ss hthere hfits _ ih =>
    subst hp
    obtain ⟨entries, e, hdir, hfind⟩ := ht.isSome_at?_below.mp hthere
    obtain ⟨hsize, hreach⟩ := fits_concat.mp hfits
    have hbelow : (t.down n e).Within root := ht.down hdir hfind
    have hlink : ∀ target, e ≠ .link target := by
      rintro target rfl
      exact hfree _ target hbelow.at?
    rw [advance_down hdir hfind hlink hsize (by rwa [ht.sizeBelow])]
    exact ih hbelow (Trail.place_down t n e)

theorem advance_ne_linked (hfree : root.LinkFree) (ht : t.Within root) {target : String}
    {rest : List Pathname.Step} : advance root reach t ss ≠ .linked u target rest := by
  intro h
  fun_induction advance root reach t ss with
  | case2 t ss entries hdir ih => exact ih ht h
  | case3 t ss entries hdir ih => exact ih ht.tail h
  | case6 t ss entries hdir n hin target' hfind => exact hfree _ target' (ht.down hdir hfind).at?
  | case7 t ss entries hdir n hin e hlink hfind ih => exact ih (ht.down hdir hfind) h
  | case1 | case4 | case5 | case8 => cases h

theorem follow_eq_ok_iff_advance (hfree : root.LinkFree) (ht : t.Within root) :
    follow root reach links t ss = .ok (u, k) ↔
      advance root reach t ss = .arrived u ∧ k = links := by
  cases ha : advance root reach t ss with
  | arrived v =>
    rw [follow_of_arrived ha]
    simp [eq_comm]
  | linked v target rest => exact absurd ha (advance_ne_linked hfree ht)
  | refused error =>
    rw [follow_of_refused ha]
    simp

end Walks

/-! ## The absolute path -/

variable {fs : FileSystem} {path : String} {place : Place}

def originPlace (fs : FileSystem) (p : Pathname) : Place := if p.absolute then [] else fs.current

theorem exists_start_at (hcurrent : fs.root.labelAt? fs.current = some .directory) (p : Pathname) :
    ∃ origin, fs.start p = .ok origin ∧ origin.Within fs.root ∧
      origin.place = fs.originPlace p := by
  unfold start originPlace
  split
  · exact ⟨[], rfl, .nil, rfl⟩
  · refine exists_trailTo ?_
    obtain ⟨e, he, _⟩ := Option.map_eq_some_iff.mp hcurrent
    rw [he, Option.isSome_some]

/-- Where no link is, a path is resolved to the place to which it leads. -/
theorem resolve_eq_ok_iff_leads (hfree : fs.root.LinkFree)
    (hcurrent : fs.root.labelAt? fs.current = some .directory) :
    fs.resolve path = .ok place ↔
      checkText path = .ok () ∧
        Leads fs.root (Fits nameable) (fs.originPlace (.ofString path)) (stepsOf (.ofString path))
          place := by
  obtain ⟨origin, hstart, hwithin, hplace⟩ := exists_start_at hcurrent (.ofString path)
  rw [resolve_eq_ok_iff, ← hplace]
  refine and_congr_right fun _ => ?_
  constructor
  · rintro ⟨trail, hwalk, rfl⟩
    obtain ⟨origin', links, hstart', hfollow⟩ := walk_eq_ok_iff.mp hwalk
    obtain rfl : origin = origin' := Except.ok.inj (hstart.symm.trans hstart')
    exact leads_of_advance hwithin ((follow_eq_ok_iff_advance hfree hwithin).mp hfollow).1
  · intro h
    obtain ⟨trail, hadvance, rfl⟩ := exists_advance_of_leads hfree hwithin h
    exact ⟨trail, walk_eq_ok_iff.mpr ⟨origin, _, hstart, follow_of_arrived hadvance⟩, rfl⟩

theorem fold_stepsOf (names : List String) (p : Pathname) :
    Pathname.fold names (stepsOf p) = Pathname.fold names p.steps := by
  unfold stepsOf
  split
  · rw [Pathname.fold_append]
    rfl
  · rfl

/-- The absolute path, found without looking. -/
def folded (fs : FileSystem) (p : Pathname) : Pathname :=
  if p.absolute then p.normalize else (fs.currentPath.join p).normalize

theorem normalize_join_currentPath (fs : FileSystem) (p : Pathname) :
    (fs.currentPath.join p).normalize = fs.folded p := by
  unfold folded Pathname.join
  split <;> rfl

/-- Folding names the place to which its steps fold from the beginning of the path. -/
theorem folded_eq (fs : FileSystem) (p : Pathname) :
    fs.folded p = .ofNames true (Pathname.fold (fs.originPlace p).reverse p.steps).reverse := by
  unfold folded originPlace
  split
  · rename_i habsolute
    simp [Pathname.normalize, Pathname.names, habsolute]
  · rename_i habsolute
    simp [Pathname.normalize, Pathname.names, Pathname.join, habsolute, currentPath,
      Pathname.ofNames, Pathname.fold_append, Pathname.fold_down]

theorem Leads.eq_folded {passable : Place → Prop} {p : Pathname} {ss : List Pathname.Step}
    (h : Leads fs.root passable (fs.originPlace p) ss place)
    (hsteps : ∀ names, Pathname.fold names ss = Pathname.fold names p.steps) :
    Pathname.ofNames true place = fs.folded p := by
  rw [folded_eq, ← hsteps, h.fold_eq, List.reverse_reverse]

theorem absoluteNames_eq (fs : FileSystem) (path : String)
    (h : ∀ place, fs.resolve path = .ok place →
      Pathname.ofNames true place = fs.folded (.ofString path)) :
    fs.absoluteNames path = (fs.folded (.ofString path)).names := by
  unfold absoluteNames
  split
  · rename_i place hplace
    rw [← h place hplace, Pathname.names_ofNames]
  · rw [← normalize_join_currentPath, Pathname.normalize, Pathname.names_ofNames]

/--
Where no link is, a path that leads anywhere leads to the place that folding names. It is resolved
to this place if it is the text of a path, nothing on the way is too long and a slash at its end
comes after a directory; whatever a path is resolved to is what folding names. So the absolute path
that is shown, and its last name, are the folded ones, whether the path is resolved or not.
-/
theorem canonical_eq_folded (hfree : fs.root.LinkFree)
    (hcurrent : fs.root.labelAt? fs.current = some .directory) (path : String) :
    let p := Pathname.ofString path
    (∀ place, Leads fs.root (fun _ => True) (fs.originPlace p) p.steps place →
      .ofNames true place = fs.folded p) ∧
    (∀ place, fs.resolve path = .ok place ↔
      checkText path = .ok () ∧
        Leads fs.root (Fits nameable) (fs.originPlace p) (stepsOf p) place) ∧
    (∀ place, fs.resolve path = .ok place → .ofNames true place = fs.folded p) ∧
    fs.display path = absoluteText (fs.folded p).names ∧
    fs.baseName path = (fs.folded p).names.getLast? := by
  intro p
  have hresolve : ∀ place, fs.resolve path = .ok place → .ofNames true place = fs.folded p := by
    intro place hplace
    obtain ⟨_, hleads⟩ := (resolve_eq_ok_iff_leads hfree hcurrent).mp hplace
    exact hleads.eq_folded fun names => fold_stepsOf names p
  have hnames : fs.absoluteNames path = (fs.folded p).names := fs.absoluteNames_eq path hresolve
  refine ⟨fun place h => h.eq_folded fun _ => rfl, fun place => ?_, hresolve, ?_, ?_⟩
  · exact resolve_eq_ok_iff_leads hfree hcurrent
  · rw [display, hnames]
  · rw [baseName, hnames]

def sampleFiles : FileSystem where
  root := .directory [("proj", .directory
    [("README", .file .empty), ("src", .directory [("main.rs", .file .empty)])])]
  current := ["proj"]

theorem linkFree_sampleFiles : sampleFiles.root.LinkFree := by
  have hsrc : (Entry.directory [("main.rs", .file .empty)]).LinkFree :=
    Entry.linkFree_directory (by simp [Entry.linkFree_file])
  have hproj : (Entry.directory [("README", .file .empty),
      ("src", .directory [("main.rs", .file .empty)])]).LinkFree :=
    Entry.linkFree_directory (by simp [Entry.linkFree_file, hsrc])
  exact Entry.linkFree_directory (by simp [hproj])

/-- The path goes up more often than there are directories, and comes back to the project. -/
theorem canonical_eq_folded_above_root :
    let path := "src/../.././../proj//src/."
    let p := Pathname.ofString path
    let place := ["proj", "src"]
    sampleFiles.root.LinkFree ∧
      sampleFiles.root.labelAt? sampleFiles.current = some .directory ∧
      Leads sampleFiles.root (fun _ => True) (sampleFiles.originPlace p) p.steps place ∧
      sampleFiles.resolve path = .ok place ∧
      Pathname.ofNames true place = sampleFiles.folded p ∧
      sampleFiles.display path = "/proj/src" ∧ sampleFiles.baseName path = some "src" := by
  intro path p place
  have hcurrent : sampleFiles.root.labelAt? sampleFiles.current = some .directory := rfl
  have hsteps : p.steps =
      [.down "src", .up, .up, .stay, .up, .down "proj", .down "src", .stay] := by decide
  have horigin : sampleFiles.originPlace p = ["proj"] := by decide
  have hfits : Leads sampleFiles.root (Fits nameable) (sampleFiles.originPlace p) p.steps
      place := by
    rw [hsteps, horigin]
    refine .down rfl (fits_concat.mpr ⟨by decide, by decide⟩) ?_
    refine .up rfl (.up rfl (.stay rfl (.up rfl ?_)))
    refine .down rfl (fits_concat.mpr ⟨by decide, by decide⟩) ?_
    exact .down rfl (fits_concat.mpr ⟨by decide, by decide⟩) (.stay rfl (.nil place))
  have hleads := hfits.imp fun _ _ => trivial
  obtain ⟨hfolded, hresolve, _, hdisplay, hname⟩ :=
    canonical_eq_folded linkFree_sampleFiles hcurrent path
  refine ⟨linkFree_sampleFiles, hcurrent, hleads, ?_, hfolded place hleads, ?_, ?_⟩
  · have hslash : stepsOf p = p.steps := by decide
    exact (hresolve place).mpr ⟨checkText_eq_ok_iff.mpr (by decide), hslash ▸ hfits⟩
  · rw [hdisplay]
    decide
  · rw [hname]
    decide

end FileSystem

end LayoutCheck
