import LayoutCheck.Proofs.LookUp
import LayoutCheck.Proofs.Scanned

/-!
Copies of a tree.

A copy has the entries of the tree at every level (`IsCopy`). A directory of the file system that
holds the tree is one for the scan, wherever it is (`Entry.Holds.isCopy`).
-/

namespace LayoutCheck

/-- What the target leads to has exactly the entries of the tree, with the same names and kinds, and
no directory is inside itself. The ancestors are the directories that it is in. -/
inductive IsCopy {ω δ : Type} (s : Surroundings ω δ) : List δ → Option ω → Tree → Prop where
  | file {ancestors : List δ} {n : String} {d : Option String} :
      IsCopy s ancestors none (.file n d)
  | directory {ancestors : List δ} {way : ω} {n : String} {d : Option String} {cs : List Tree}
      {entries : List (Listed ω)} :
      (∀ here ∈ s.identity way, here ∉ ancestors) → s.list way = .ok entries →
      (entries.map Listed.name).Perm (cs.map Tree.name) →
      (∀ e ∈ entries, ∀ c ∈ cs, c.name = e.name →
        IsCopy s ((s.identity way).toList ++ ancestors) e.way c) →
      IsCopy s ancestors (some way) (.directory n d cs)

theorem IsCopy.kind_eq {ω δ : Type} {s : Surroundings ω δ} {ancestors : List δ} {way : ω} {t : Tree}
    (h : IsCopy s ancestors (some way) t) : t.kind = .directory := by
  cases h
  rfl

/-- The entry at the path holds the tree: regular files and directories, and nothing else. The
system accepts the path of everything in it. -/
inductive Entry.Holds : Entry → String → Tree → Prop where
  | file {path n : String} {d : Option String} {content : ByteArray} :
      Holds (.file content) path (.file n d)
  | directory {path n : String} {d : Option String} {entries : List (String × Entry)}
      {cs : List Tree} :
      (entries.map Prod.fst).Perm (cs.map Tree.name) →
      (∀ e ∈ entries, e.1.utf8ByteSize ≤ FileSystem.maxNameSize ∧
        FileSystem.checkPath (childPath path e.1) = .ok ()) →
      (∀ e ∈ entries, ∀ c ∈ cs, c.name = e.1 → Holds e.2 (childPath path e.1) c) →
      Holds (.directory entries) path (.directory n d cs)

/-! ## The file system as surroundings -/

namespace FileSystem

variable {fs : FileSystem} {path n : String} {entries : List (String × Entry)} {e : Entry}

theorem size_lt_childPath {name : String} (h : name ≠ "") :
    path.utf8ByteSize < (childPath path name).utf8ByteSize := by
  have hpos : 0 < name.utf8ByteSize := Nat.pos_of_ne_zero (by simpa using h)
  unfold childPath
  split
  · rename_i hpath
    simpa [hpath] using hpos
  · split <;> (simp only [String.utf8ByteSize_append]; omega)

theorem size_lt_absoluteText (place : Place) {name : String} (h : name ≠ "") :
    (absoluteText place).utf8ByteSize < (absoluteText (place ++ [name])).utf8ByteSize := by
  have hpos : 0 < name.utf8ByteSize := Nat.pos_of_ne_zero (by simpa using h)
  by_cases hplace : place = []
  · simpa [hplace, absoluteText] using hpos
  · rw [absoluteText_concat hplace]
    simp only [String.utf8ByteSize_append]
    omega

/-- A directory that is looked up is listed; entries that are looked up below it are ways on. -/
theorem list_of_lookUp (hlook : fs.lookUp path = .ok (.directory entries))
    (hbelow : ∀ e ∈ entries, e.1 ≠ "" ∧ fs.lookUp (childPath path e.1) = .ok e.2) :
    fs.surroundings.list path = .ok (entries.map fun e =>
      ⟨e.1, if e.2.isDirectory then some (childPath path e.1) else none⟩) := by
  have hsize : ¬ maxPathSize ≤ path.utf8ByteSize :=
    Nat.not_le.mpr (checkPath_eq_ok_iff.mp (lookUp_eq_ok_iff.mp hlook).1).2
  change listPath fs.listDirectory path = _
  rw [listPath, if_neg hsize, listDirectory, hlook]
  simp only [List.map_map]
  refine congrArg Except.ok (List.map_congr_left fun e he => ?_)
  obtain ⟨hname, hfound⟩ := hbelow e he
  have hlonger : path.utf8ByteSize < (childPath path e.1).utf8ByteSize := size_lt_childPath hname
  cases hdir : e.2.isDirectory
  · simp [listed, isWay, hfound, hdir]
  · simp [listed, isWay, hfound, hdir, hlonger]

theorem mem_identity_iff {here : String} :
    here ∈ fs.surroundings.identity path ↔
      ∃ place, fs.resolve path = .ok place ∧ absoluteText place = here := by
  change (fs.resolve path).toOption.map absoluteText = some here ↔ _
  cases fs.resolve path <;> simp [Except.toOption]

def Deeper (fs : FileSystem) (ancestors : List String) (path : String) : Prop :=
  ∀ here ∈ fs.surroundings.identity path, ∀ a ∈ ancestors, a.utf8ByteSize < here.utf8ByteSize

theorem deeper_childPath {ancestors : List String}
    (hlook : fs.lookUp path = .ok (.directory entries)) (hn : Pathname.IsStep n)
    (hfind : Entry.find? entries n = some e) (hlink : ∀ target, e ≠ .link target)
    (hsize : n.utf8ByteSize ≤ maxNameSize) (hdeeper : fs.Deeper ancestors path) :
    fs.Deeper ((fs.surroundings.identity path).toList ++ ancestors) (childPath path n) := by
  intro here hhere a ha
  obtain ⟨place, hplace, rfl⟩ := mem_identity_iff.mp hhere
  obtain ⟨above, habove, rfl⟩ := exists_resolve_of_childPath hlook hn hfind hlink hsize hplace
  have hid : absoluteText above ∈ fs.surroundings.identity path :=
    mem_identity_iff.mpr ⟨above, habove, rfl⟩
  have hlt := size_lt_absoluteText above hn.1
  rcases List.mem_append.mp ha with ha | ha
  · obtain rfl := Option.mem_unique hid (Option.mem_toList.mp ha)
    exact hlt
  · exact Nat.lt_trans (hdeeper _ hid a ha) hlt

end FileSystem

theorem Entry.find?_of_nodup {entries : List (String × Entry)} {e : String × Entry}
    (h : (entries.map Prod.fst).Nodup) (he : e ∈ entries) : Entry.find? entries e.1 = some e.2 := by
  rw [Entry.find?, find?_key_of_nodup h he]
  rfl

theorem Entry.Holds.ne_link {path : String} {entry : Entry} {t : Tree} (h : entry.Holds path t)
    (target : String) : entry ≠ .link target := by
  rintro rfl
  cases h

/-- Scanned at its path, an entry that holds a tree is a copy of it. -/
theorem Entry.Holds.isCopy {fs : FileSystem} {path : String} {entry : Entry} {t : Tree}
    (h : entry.Holds path t) (ht : Specification.Declared t) (hlook : fs.lookUp path = .ok entry)
    {ancestors : List String} (hdeeper : fs.Deeper ancestors path) :
    IsCopy fs.surroundings.toSurroundings ancestors
      (if entry.isDirectory then some path else none) t := by
  induction h generalizing ancestors with
  | file => exact .file
  | @directory path n d entries cs hnames hfits hholds ih =>
    obtain ⟨-, hcs, hdeclared⟩ := Tree.namedBy_directory.mp ht
    have hentry : ∀ e ∈ entries, Pathname.IsStep e.1 ∧ Entry.find? entries e.1 = some e.2 ∧
        ∀ target, e.2 ≠ .link target := by
      intro e he
      obtain ⟨c, hc, hname⟩ := List.mem_map.mp (hnames.mem_iff.mp (List.mem_map_of_mem he))
      have hstep : Pathname.IsStep c.name :=
        (Specification.isEntryName_iff _).mp (hdeclared c hc).here.1
      exact ⟨hname ▸ hstep, Entry.find?_of_nodup (hnames.nodup_iff.mpr hcs) he,
        (hholds e he c hc hname).ne_link⟩
    have hbelow : ∀ e ∈ entries, fs.lookUp (childPath path e.1) = .ok e.2 := fun e he =>
      FileSystem.lookUp_childPath hlook (hentry e he).1 (hentry e he).2.1 (hentry e he).2.2
        (hfits e he).1 (hfits e he).2
    refine .directory (fun here hhere hin => absurd (hdeeper here hhere here hin) (Nat.lt_irrefl _))
      (FileSystem.list_of_lookUp hlook fun e he => ⟨(hentry e he).1.1, hbelow e he⟩)
      (by simpa [Function.comp_def] using hnames) ?_
    intro listed hlisted c hc hname
    obtain ⟨e, he, rfl⟩ := List.mem_map.mp hlisted
    obtain ⟨hstep, hfind, hlink⟩ := hentry e he
    exact ih e he c hc hname (hdeclared c hc) (hbelow e he)
      (FileSystem.deeper_childPath hlook hstep hfind hlink (hfits e he).1 hdeeper)

end LayoutCheck
