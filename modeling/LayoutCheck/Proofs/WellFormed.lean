import LayoutCheck.Proofs.EntryPath
import LayoutCheck.Tree

/-!
What holds of every tree that was built entry by entry.

`All P` says that `P` holds of a tree and of every entry in it. A tree is well-formed when all its
names can stand in a path and no directory has two entries of one name. Leaves, and branches of
well-formed entries, are well-formed when their names can stand in a path (`namedBy_leaf`,
`NamedBy.branch`). In a well-formed tree each entry is the one that its name leads to
(`child?_of_mem`).
-/

namespace LayoutCheck

/-- In a list without repeated keys an element is the one that its key leads to. -/
theorem find?_key_of_nodup {α : Type} {key : α → String} {as : List α} {a : α}
    (h : (as.map key).Nodup) (ha : a ∈ as) : as.find? (fun b => key b = key a) = some a := by
  induction as with
  | nil => simp at ha
  | cons b bs ih =>
    obtain ⟨hb, hbs⟩ := List.nodup_cons.mp h
    rcases List.mem_cons.mp ha with rfl | ha
    · simp
    · have hne : key b ≠ key a := fun he => hb (he ▸ List.mem_map_of_mem ha)
      rw [List.find?_cons_of_neg (by simpa using hne)]
      exact ih hbs ha

namespace Tree

variable {P Q : Tree → Prop} {valid : String → Prop} {t c : Tree} {n : String} {ns : List String}

@[simp] theorem name_file {d : Option String} : (file n d).name = n := rfl

@[simp] theorem name_directory {d : Option String} {cs : List Tree} :
    (directory n d cs).name = n := rfl

@[simp] theorem kind_file {d : Option String} : (file n d).kind = .file := rfl

@[simp] theorem kind_directory {d : Option String} {cs : List Tree} :
    (directory n d cs).kind = .directory := rfl

@[simp] theorem children_file {d : Option String} : (file n d).children = [] := rfl

@[simp] theorem children_directory {d : Option String} {cs : List Tree} :
    (directory n d cs).children = cs := rfl

inductive All (P : Tree → Prop) : Tree → Prop where
  | file {n : String} {d : Option String} : P (.file n d) → All P (.file n d)
  | directory {n : String} {d : Option String} {cs : List Tree} :
      P (.directory n d cs) → (∀ c ∈ cs, All P c) → All P (.directory n d cs)

theorem all_iff : t.All P ↔ P t ∧ ∀ c ∈ t.children, c.All P := by
  constructor
  · rintro (h | ⟨h, hcs⟩)
    · exact ⟨h, by simp⟩
    · exact ⟨h, hcs⟩
  · rintro ⟨h, hcs⟩
    cases t with
    | file => exact .file h
    | directory => exact .directory h hcs

@[simp] theorem all_file {d : Option String} : (file n d).All P ↔ P (file n d) := by
  rw [all_iff]
  simp

@[simp] theorem all_directory {d : Option String} {cs : List Tree} :
    (directory n d cs).All P ↔ P (directory n d cs) ∧ ∀ c ∈ cs, c.All P :=
  all_iff

theorem All.here (h : t.All P) : P t := (all_iff.mp h).1

theorem All.of_mem_children (h : t.All P) (hc : c ∈ t.children) : c.All P := (all_iff.mp h).2 c hc

theorem All.imp (hPQ : ∀ s, P s → Q s) (h : t.All P) : t.All Q := by
  induction t using Tree.induction with
  | file => exact .file (hPQ _ h.here)
  | directory n d cs ih =>
    exact .directory (hPQ _ h.here) (fun c hc => ih c hc (h.of_mem_children hc))

theorem All.and (hP : t.All P) (hQ : t.All Q) : t.All fun s => P s ∧ Q s := by
  induction t using Tree.induction with
  | file => exact .file ⟨hP.here, hQ.here⟩
  | directory n d cs ih =>
    refine .directory ⟨hP.here, hQ.here⟩ fun c hc => ?_
    exact ih c hc (hP.of_mem_children hc) (hQ.of_mem_children hc)

/-! ## Names -/

/-- Every name is a valid one, and no directory has two entries of one name. -/
def NamedBy (valid : String → Prop) (t : Tree) : Prop :=
  t.All (fun s => valid s.name ∧ s.childNames.Nodup)

def Distinct (t : Tree) : Prop := t.NamedBy (fun _ => True)

/-- Every name can stand in a path, and no directory has two entries of one name. -/
def WellFormed (t : Tree) : Prop := t.NamedBy IsName

theorem NamedBy.imp {valid' : String → Prop} (hv : ∀ n, valid n → valid' n)
    (h : t.NamedBy valid) : t.NamedBy valid' :=
  All.imp (fun _ hs => ⟨hv _ hs.1, hs.2⟩) h

theorem NamedBy.distinct (h : t.NamedBy valid) : t.Distinct := h.imp (fun _ _ => trivial)

theorem WellFormed.distinct (h : t.WellFormed) : t.Distinct := NamedBy.distinct h

theorem WellFormed.isName (h : t.WellFormed) : IsName t.name := (All.here h).1

theorem Distinct.nodup (h : t.Distinct) : t.childNames.Nodup := (All.here h).2

@[simp] theorem namedBy_file {d : Option String} :
    (file n d).NamedBy valid ↔ valid n := by
  rw [NamedBy, all_iff]
  simp [childNames]

@[simp] theorem namedBy_directory {d : Option String} {cs : List Tree} :
    (directory n d cs).NamedBy valid ↔
      valid n ∧ (cs.map name).Nodup ∧ ∀ c ∈ cs, c.NamedBy valid := by
  rw [NamedBy, all_iff]
  simp [childNames, and_assoc, NamedBy]

mutual

protected def decideNamedBy [DecidablePred valid] : (t : Tree) → Decidable (t.NamedBy valid)
  | file .. => decidable_of_iff _ namedBy_file.symm
  | directory n _ cs =>
    have := Tree.decideAllNamedBy cs
    decidable_of_iff (valid n ∧ (cs.map name).Nodup ∧ ∀ c ∈ cs, c.NamedBy valid)
      namedBy_directory.symm

protected def decideAllNamedBy [DecidablePred valid] :
    (cs : List Tree) → Decidable (∀ c ∈ cs, c.NamedBy valid)
  | [] => isTrue (by simp)
  | c :: cs =>
    have := Tree.decideNamedBy c
    have := Tree.decideAllNamedBy cs
    decidable_of_iff (c.NamedBy valid ∧ ∀ d ∈ cs, d.NamedBy valid) List.forall_mem_cons.symm

end

instance [DecidablePred valid] (t : Tree) : Decidable (t.NamedBy valid) := Tree.decideNamedBy t

instance (t : Tree) : Decidable t.WellFormed := inferInstanceAs (Decidable (t.NamedBy IsName))

/-! ## Children and paths -/

/-- No tree is an entry of itself. -/
theorem not_mem_children_self (t : Tree) : t ∉ t.children := by
  induction t using Tree.induction with
  | file => simp
  | directory n d cs ih => exact fun h => ih _ h h

theorem mem_children_of_child? (h : t.child? n = some c) : c ∈ t.children :=
  List.mem_of_find?_eq_some h

theorem name_of_child? (h : t.child? n = some c) : c.name = n := by
  simpa using List.find?_some h

theorem find?_of_nodup {cs : List Tree} (h : (cs.map name).Nodup) (hc : c ∈ cs) :
    cs.find? (·.name = c.name) = some c :=
  find?_key_of_nodup h hc

theorem isSome_child? : (t.child? n).isSome ↔ n ∈ t.childNames := by
  simp [child?, childNames]

/-- An entry is the one that its name leads to. -/
theorem child?_of_mem (h : t.childNames.Nodup) (hc : c ∈ t.children) :
    t.child? c.name = some c :=
  find?_of_nodup h hc

@[simp] theorem child?_file {d : Option String} {m : String} : (file n d).child? m = none := rfl

theorem kind_of_child? (h : t.child? n = some c) : t.kind = .directory := by
  cases t with
  | file => simp at h
  | directory => rfl

theorem All.child? (h : t.All P) (hc : t.child? n = some c) : c.All P :=
  h.of_mem_children (mem_children_of_child? hc)

@[simp] theorem resolve?_nil : t.resolve? [] = some t := rfl

theorem resolve?_cons : t.resolve? (n :: ns) = (t.child? n).bind (·.resolve? ns) := rfl

theorem resolve?_append (t : Tree) (ns ms : List String) :
    t.resolve? (ns ++ ms) = (t.resolve? ns).bind (·.resolve? ms) := by
  induction ns generalizing t with
  | nil => rfl
  | cons n ns ih =>
    rw [List.cons_append, resolve?_cons, resolve?_cons]
    cases t.child? n with
    | none => rfl
    | some c => exact ih c

/-- Names lead to an entry of the last one of them. -/
theorem getLast?_of_resolve? (h : t.resolve? ns = some c) (hns : ns ≠ []) :
    ns.getLast? = some c.name := by
  rw [← List.dropLast_concat_getLast hns, resolve?_append] at h
  obtain ⟨above, _, hc⟩ := Option.bind_eq_some_iff.mp h
  have hchild : above.child? (ns.getLast hns) = some c := by
    simpa [resolve?_cons, Option.bind_some] using hc
  rw [List.getLast?_eq_some_getLast hns, name_of_child? hchild]

theorem NamedBy.valid_of_resolve? (h : t.NamedBy valid) (hc : t.resolve? ns = some c) :
    ∀ n ∈ ns, valid n := by
  induction ns generalizing t with
  | nil => simp
  | cons n ns ih =>
    obtain ⟨d, hd, hres⟩ := Option.bind_eq_some_iff.mp hc
    have hdn : d.NamedBy valid := All.child? h hd
    exact List.forall_mem_cons.mpr ⟨name_of_child? hd ▸ (All.here hdn).1, ih hdn hres⟩

theorem All.resolve? (h : t.All P) (hc : t.resolve? ns = some c) : c.All P := by
  induction ns generalizing t with
  | nil =>
    obtain rfl : t = c := by simpa using hc
    exact h
  | cons n ns ih =>
    obtain ⟨d, hd, hc⟩ := Option.bind_eq_some_iff.mp hc
    exact ih (h.child? hd) hc

/-! ## Building -/

theorem mem_place {entry c : Tree} {cs : List Tree} (h : c ∈ place entry cs) :
    c = entry ∨ c ∈ cs := by
  induction cs with
  | nil => simpa [place] using h
  | cons d ds ih =>
    simp only [place] at h
    split at h
    · exact (List.mem_cons.mp h).imp_right (List.mem_cons_of_mem d)
    · rcases List.mem_cons.mp h with rfl | h
      · exact .inr (List.mem_cons_self ..)
      · exact (ih h).imp_right (List.mem_cons_of_mem d)

theorem nodup_names_place {entry : Tree} {cs : List Tree} (h : (cs.map name).Nodup) :
    ((place entry cs).map name).Nodup := by
  induction cs with
  | nil => simp [place]
  | cons d ds ih =>
    obtain ⟨hd, hds⟩ := List.nodup_cons.mp h
    simp only [place]
    split
    · rename_i he
      exact List.nodup_cons.mpr ⟨he ▸ hd, hds⟩
    · rename_i hne
      refine List.nodup_cons.mpr ⟨?_, ih hds⟩
      rw [mem_names_place]
      exact not_or.mpr ⟨hne, hd⟩

/-- Placing entries one after the other keeps names apart and adds nothing else. -/
theorem foldl_place (entries : List Tree) {placed : List Tree} (h : (placed.map name).Nodup) :
    ((entries.foldl (fun cs e => place e cs) placed).map name).Nodup ∧
      ∀ c ∈ entries.foldl (fun cs e => place e cs) placed, c ∈ entries ∨ c ∈ placed := by
  induction entries generalizing placed with
  | nil => exact ⟨h, fun c hc => .inr hc⟩
  | cons e es ih =>
    have hplaced : ((place e placed).map name).Nodup := nodup_names_place h
    obtain ⟨hn, hm⟩ := ih hplaced
    refine ⟨hn, fun c hc => ?_⟩
    rcases hm c hc with hc | hc
    · exact .inl (List.mem_cons_of_mem e hc)
    · rcases mem_place hc with rfl | hc
      · exact .inl (List.mem_cons_self ..)
      · exact .inr hc

theorem nodup_names_arrange (entries : List Tree) : ((arrange entries).map name).Nodup :=
  (foldl_place entries (by simp)).1

theorem mem_of_mem_arrange {entries : List Tree} (h : c ∈ arrange entries) : c ∈ entries := by
  simpa using (foldl_place entries (by simp)).2 c h

theorem place_of_not_mem {entry : Tree} {cs : List Tree} (h : entry.name ∉ cs.map name) :
    place entry cs = cs ++ [entry] := by
  induction cs with
  | nil => rfl
  | cons c cs ih =>
    rw [List.map_cons, List.mem_cons, not_or] at h
    rw [place, if_neg (Ne.symm h.1), ih h.2, List.cons_append]

theorem foldl_place_of_nodup {entries placed : List Tree}
    (h : ((placed ++ entries).map name).Nodup) :
    entries.foldl (fun cs e => place e cs) placed = placed ++ entries := by
  induction entries generalizing placed with
  | nil => simp
  | cons e es ih =>
    have hassoc : placed ++ e :: es = (placed ++ [e]) ++ es := by simp
    have he : e.name ∉ placed.map name := by
      rw [List.map_append, List.map_cons] at h
      exact fun hmem => (List.nodup_append.mp h).2.2 _ hmem _ (List.mem_cons_self ..) rfl
    rw [List.foldl_cons, place_of_not_mem he, hassoc]
    exact ih (hassoc ▸ h)

/-- Entries of distinct names stay as they are. -/
theorem arrange_of_nodup {entries : List Tree} (h : (entries.map name).Nodup) :
    arrange entries = entries :=
  foldl_place_of_nodup h

theorem NamedBy.branch {entries : List Tree} (hn : valid n)
    (h : ∀ c ∈ entries, c.NamedBy valid) : (branch n entries).NamedBy valid :=
  namedBy_directory.mpr
    ⟨hn, nodup_names_arrange entries, fun c hc => h c (mem_of_mem_arrange hc)⟩

theorem namedBy_leaf : (leaf n).NamedBy valid ↔ valid n := namedBy_file

@[simp] theorem namedBy_describe (text : String) :
    (t.describe text).NamedBy valid ↔ t.NamedBy valid := by
  cases t <;> simp [describe]

end Tree

end LayoutCheck
