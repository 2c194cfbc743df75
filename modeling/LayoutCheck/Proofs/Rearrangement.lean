import LayoutCheck.Proofs.Alignment
import LayoutCheck.Report.Text
import Mathlib.Data.List.Forall2

/-!
Reordered siblings and other descriptions change no comparison.

A rearranged tree has under each name an entry that is rearranged (`Rearranged.child?`), so it says
the same of every list of names (`statusAt_rearranged`). Each path has one status whatever the order
in which it was recorded, so rearranged trees have the same results
(`compareRoots_eq_of_rearranged`).
-/

namespace LayoutCheck

namespace Tree

variable {t u : Tree} {n : String}

/-- The second tree is the first with the entries of directories in any order, at any depth, and
with any descriptions. -/
inductive Rearranged : Tree → Tree → Prop where
  | file {n : String} {d b : Option String} : Rearranged (.file n d) (.file n b)
  | directory {n : String} {d b : Option String} {cs ms os : List Tree} :
      cs.Perm ms → List.Forall₂ Rearranged ms os →
        Rearranged (.directory n d cs) (.directory n b os)

namespace Rearranged

@[refl] theorem refl (t : Tree) : t.Rearranged t := by
  induction t using Tree.induction with
  | file n d => exact .file
  | directory n d cs ih => exact .directory (.refl cs) (List.forall₂_same.mpr ih)

instance : Std.Refl Rearranged := ⟨refl⟩

theorem name_eq (h : t.Rearranged u) : t.name = u.name := by
  cases h <;> rfl

theorem kind_eq (h : t.Rearranged u) : t.kind = u.kind := by
  cases h <;> rfl

end Rearranged

/-- Among distinct names the order of the entries does not matter. -/
theorem find?_of_perm {cs ms : List Tree} (h : cs.Perm ms) (hcs : (cs.map name).Nodup)
    (n : String) : ms.find? (·.name = n) = cs.find? (·.name = n) := by
  have hms : (ms.map name).Nodup := (h.map name).nodup_iff.mp hcs
  cases hc : cs.find? (·.name = n) with
  | none =>
    rw [List.find?_eq_none] at hc ⊢
    exact fun m hm => hc m (h.mem_iff.mpr hm)
  | some c =>
    obtain rfl : c.name = n := by simpa using List.find?_some hc
    exact find?_of_nodup hms (h.mem_iff.mp (List.mem_of_find?_eq_some hc))

theorem find?_of_forall₂ {ms os : List Tree} (h : List.Forall₂ Rearranged ms os) (n : String) :
    Option.Rel Rearranged (ms.find? (·.name = n)) (os.find? (·.name = n)) := by
  induction h with
  | nil => exact .none
  | cons hmo _ ih =>
    rw [List.find?_cons, List.find?_cons, hmo.name_eq]
    split
    · exact .some hmo
    · exact ih

theorem map_name_of_forall₂ {ms os : List Tree} (h : List.Forall₂ Rearranged ms os) :
    ms.map name = os.map name := by
  induction h with
  | nil => rfl
  | cons hmo _ ih => rw [List.map_cons, List.map_cons, hmo.name_eq, ih]

theorem exists_of_forall₂ {ms os : List Tree} (h : List.Forall₂ Rearranged ms os) {o : Tree}
    (ho : o ∈ os) : ∃ m ∈ ms, m.Rearranged o := by
  induction h with
  | nil => simp at ho
  | cons hmo _ ih =>
    rcases List.mem_cons.mp ho with rfl | ho
    · exact ⟨_, List.mem_cons_self .., hmo⟩
    · obtain ⟨m, hm, hmo⟩ := ih ho
      exact ⟨m, List.mem_cons_of_mem _ hm, hmo⟩

/-- A name leads to rearranged entries, or in both trees to none. -/
theorem Rearranged.child? (h : t.Rearranged u) (ht : t.Distinct) (n : String) :
    Option.Rel Rearranged (t.child? n) (u.child? n) := by
  cases h with
  | file => exact .none
  | directory hperm hall =>
    have := find?_of_forall₂ hall n
    rwa [find?_of_perm hperm ht.nodup] at this

theorem NamedBy.rearranged {valid : String → Prop} (ht : t.NamedBy valid) (h : t.Rearranged u) :
    u.NamedBy valid := by
  induction t using Tree.induction generalizing u with
  | file n d =>
    cases h with
    | file => exact namedBy_file.mpr (namedBy_file.mp ht)
  | directory n d cs ih =>
    obtain ⟨hn, hcs, hvalid⟩ := namedBy_directory.mp ht
    cases h with
    | directory hperm hall =>
      refine namedBy_directory.mpr ⟨hn, ?_, fun o ho => ?_⟩
      · rw [← map_name_of_forall₂ hall]
        exact (hperm.map name).nodup_iff.mp hcs
      · obtain ⟨m, hm, hmo⟩ := exists_of_forall₂ hall ho
        have hc : m ∈ cs := hperm.mem_iff.mpr hm
        exact ih m hc (hvalid m hc) hmo

end Tree

open LayoutCheck.Tree (Rearranged)

/-! ## The status of a path -/

theorem observed?_rearranged {a b : Option Tree} (h : Option.Rel Rearranged a b)
    (ha : ∀ t ∈ a, t.Distinct) (n : String) :
    Option.Rel Rearranged (observed? a n) (observed? b n) := by
  cases h with
  | none => exact .none
  | some h => exact h.child? (ha _ rfl) n

theorem verdict_rearranged {e f : Tree} {a b : Option Tree} (h : e.Rearranged f)
    (hab : Option.Rel Rearranged a b) : verdict e a = verdict f b := by
  cases hab with
  | none => rfl
  | some hab => rw [verdict, verdict, h.kind_eq, hab.kind_eq]

/-- Rearranged trees give every list of names the same status. -/
theorem statusAt_rearranged {e f a b : Option Tree} (hef : Option.Rel Rearranged e f)
    (hab : Option.Rel Rearranged a b) (he : ∀ t ∈ e, t.Distinct) (ha : ∀ t ∈ a, t.Distinct)
    (ns : List String) : statusAt e a ns = statusAt f b ns := by
  induction ns generalizing e f a b with
  | nil =>
    cases hef with
    | none => cases hab <;> rfl
    | some hef => rw [statusAt_nil, statusAt_nil, verdict_rearranged hef hab]
  | cons n ns ih =>
    cases hef with
    | none => cases hab <;> rfl
    | some hef =>
      have hchild := observed?_rearranged (.some hef) he n
      have hobserved := observed?_rearranged hab ha n
      rw [statusAt_cons, statusAt_cons, verdict_rearranged hef hab]
      split
      · rfl
      · exact ih hchild hobserved (all_of_observed? he n) (all_of_observed? ha n)

/-! ## The alignment of the roots -/

namespace Alignment

variable {l m : Alignment}

structure Rearranged (l m : Alignment) : Prop where
  matched : l.matched = m.matched
  declared : l.declared.Rearranged m.declared
  actual : l.actual.Rearranged m.actual

theorem Rearranged.recordsRoot (h : l.Rearranged m) : l.recordsRoot = m.recordsRoot := by
  rw [Alignment.recordsRoot, Alignment.recordsRoot, h.matched, h.declared.kind_eq,
    h.actual.kind_eq]

theorem Rearranged.wellFormed (h : l.Rearranged m) (hl : l.WellFormed) : m.WellFormed :=
  ⟨Tree.NamedBy.rearranged hl.declared h.declared, Tree.NamedBy.rearranged hl.actual h.actual⟩

theorem Rearranged.results (h : l.Rearranged m) (hl : l.WellFormed) : l.results = m.results := by
  have hfindings : ∀ f, f ∈ l.findings ↔ f ∈ m.findings := by
    rintro ⟨ns, s⟩
    have hstatus := statusAt_rearranged (.some h.declared) (.some h.actual)
      (by simpa using hl.declared.distinct) (by simpa using hl.actual.distinct) ns
    rw [mem_findings hl, mem_findings (h.wellFormed hl), h.recordsRoot, hstatus]
  apply Results.ext_find?
  intro p
  apply Option.ext
  intro s
  simp only [find?_results hl, find?_results (h.wellFormed hl), hfindings, h.declared.name_eq]

end Alignment

theorem directoryChild?_rearranged {t u : Tree} (h : t.Rearranged u) (ht : t.Distinct)
    (n : String) : Option.Rel Rearranged (t.directoryChild? n) (u.directoryChild? n) := by
  have hdir : ∀ {c o : Tree}, c.Rearranged o → c.isDirectory = o.isDirectory := by
    intro c o hco
    rw [Tree.isDirectory, Tree.isDirectory, hco.kind_eq]
  have hchild := h.child? ht n
  unfold Tree.directoryChild?
  generalize t.child? n = c, u.child? n = o at hchild
  cases hchild with
  | none => exact .none
  | some hco =>
    rw [Option.filter_some, Option.filter_some, hdir hco]
    split
    · exact .some hco
    · exact .none

/-- Roots of rearranged declared trees are lined up alike, with observed trees that are related. -/
theorem alignRoots_rel {R : Tree → Tree → Prop} {e f a b : Tree} (he : e.Distinct)
    (hef : e.Rearranged f) (hname : a.name = b.name) (hab : R a b)
    (hobserved : Option.Rel R (a.directoryChild? e.name) (b.directoryChild? e.name)) :
    (alignRoots e a).matched = (alignRoots f b).matched ∧
      (alignRoots e a).declared.Rearranged (alignRoots f b).declared ∧
      R (alignRoots e a).actual (alignRoots f b).actual := by
  have hdeclared := directoryChild?_rearranged hef he a.name
  unfold alignRoots
  rw [← hef.name_eq, ← hname]
  generalize a.directoryChild? e.name = o, b.directoryChild? e.name = o' at hobserved
  generalize e.directoryChild? a.name = d, f.directoryChild? a.name = d' at hdeclared
  split
  · exact ⟨rfl, hef, hab⟩
  · cases hobserved with
    | some hinner => exact ⟨rfl, hef, hinner⟩
    | none =>
      cases hdeclared with
      | some hinner => exact ⟨rfl, hinner, hab⟩
      | none => exact ⟨rfl, hef, hab⟩

theorem alignRoots_rearranged {e f a b : Tree} (he : e.Distinct) (ha : a.Distinct)
    (hef : e.Rearranged f) (hab : a.Rearranged b) :
    (alignRoots e a).Rearranged (alignRoots f b) := by
  have hobserved := directoryChild?_rearranged hab ha e.name
  obtain ⟨hmatched, hdeclared, hactual⟩ := alignRoots_rel he hef hab.name_eq hab hobserved
  exact ⟨hmatched, hdeclared, hactual⟩

/--
Trees that differ in the order of siblings and in descriptions only are compared alike: their roots
match in the same way, and they have the same results. So all texts made of the results are the
same.
-/
theorem compareRoots_eq_of_rearranged {e f a b : Tree} (he : e.WellFormed) (ha : a.WellFormed)
    (hef : e.Rearranged f) (hab : a.Rearranged b) :
    let report := Report.ofResults (compareRoots e a).value.results
    let report' := Report.ofResults (compareRoots f b).value.results
    (compareRoots e a).value = (compareRoots f b).value ∧
      ∀ style, report.render style = report'.render style ∧
        report.verdict style = report'.verdict style ∧
        ∀ limit, (report.remediation limit).render style =
          (report'.remediation limit).render style := by
  have hl : (alignRoots e a).WellFormed := wellFormed_alignRoots he ha
  have hroots := alignRoots_rearranged he.distinct ha.distinct hef hab
  have hvalue : (compareRoots e a).value = (compareRoots f b).value := by
    calc (compareRoots e a).value
        = ⟨(alignRoots e a).matched, (alignRoots e a).results⟩ := rfl
      _ = ⟨(alignRoots f b).matched, (alignRoots f b).results⟩ := by
        rw [hroots.matched, hroots.results hl]
      _ = (compareRoots f b).value := rfl
  rw [hvalue]
  exact ⟨rfl, fun _ => ⟨rfl, rfl, fun _ => rfl⟩⟩

theorem compareRoots_eq_of_rearranged_nested :
    let input := (Tree.leaf "io.rs").describe "input"
    let lib := Tree.branch "lib" [.leaf "mod.rs", input]
    let lib' := (Tree.branch "lib" [.leaf "io.rs", .leaf "mod.rs"]).describe "library"
    let src := Tree.branch "src" [.branch "docs" [], .branch "tests" [.leaf "all.rs"], lib]
    let src' := Tree.branch "src" [lib', .branch "docs" [], .branch "tests" [.leaf "all.rs"]]
    let e := Tree.branch "src" [.branch "lib" [.leaf "mod.rs", .leaf "main.rs"], .leaf "docs"]
    let f := Tree.branch "src" [.leaf "docs", .branch "lib" [.leaf "mod.rs", .leaf "main.rs"]]
    let a := Tree.branch "project" [.leaf "README", src]
    let b := Tree.branch "project" [src', .leaf "README"]
    e.WellFormed ∧ a.WellFormed ∧ e.Rearranged f ∧ a.Rearranged b ∧
      (compareRoots f b).value.results.entries =
        [("src/docs", .typeMismatch), ("src/lib", .compliant), ("src/lib/io.rs", .extra),
          ("src/lib/main.rs", .missing), ("src/lib/mod.rs", .compliant),
          ("src/tests", .extra)] := by
  intro input lib lib' src src' e f a b
  have he : e.WellFormed := by decide
  have ha : a.WellFormed := by decide
  have hef : e.Rearranged f := by
    have hperm : e.children.Perm f.children := by decide
    exact .directory hperm (List.forall₂_refl _)
  have hlib : lib.Rearranged lib' := by
    have hperm : lib.children.Perm [input, .leaf "mod.rs"] := .swap ..
    exact .directory hperm (.cons .file (.cons .file .nil))
  have hsrc : src.Rearranged src' := by
    have hperm : src.children.Perm [lib, .branch "docs" [], .branch "tests" [.leaf "all.rs"]] := by
      decide
    exact .directory hperm (.cons hlib (List.forall₂_refl _))
  have hab : a.Rearranged b := by
    have hperm : a.children.Perm [src, .leaf "README"] := .swap ..
    exact .directory hperm (.cons hsrc (List.forall₂_refl _))
  obtain ⟨hvalue, _⟩ := compareRoots_eq_of_rearranged he ha hef hab
  refine ⟨he, ha, hef, hab, ?_⟩
  rw [← hvalue]
  decide

end LayoutCheck
