import LayoutCheck.Proofs.Alignment
import LayoutCheck.Report

/-!
When a comparison passes.

`contents` lists the path and the kind of every entry below a root. Every status that is found is
compliant exactly when all lists of names lead to the same kinds in both trees
(`forall_results_compliant_iff`), and then they have the same contents (`kindAt?_eq_iff_contents`).
-/

namespace LayoutCheck

namespace Tree

variable {t u : Tree} {above p : String} {k : Kind} {ns : List String}

mutual

/-- The path and the kind of every entry below a tree, paths going on from `above`. -/
def contentsBelow (above : String) : Tree → List (String × Kind)
  | file .. => []
  | directory _ _ cs => contentsAmong above cs

def contentsAmong (above : String) : List Tree → List (String × Kind)
  | [] => []
  | c :: cs =>
    (joinPath above c.name, c.kind) :: contentsBelow (joinPath above c.name) c ++
      contentsAmong above cs

end

def contents (t : Tree) : List (String × Kind) := t.contentsBelow ""

theorem mem_contentsAmong {cs : List Tree} :
    (p, k) ∈ contentsAmong above cs ↔ ∃ c ∈ cs,
      (joinPath above c.name, c.kind) = (p, k) ∨
        (p, k) ∈ contentsBelow (joinPath above c.name) c := by
  induction cs with
  | nil => simp [contentsAmong]
  | cons c cs ih => simp [contentsAmong, ih, eq_comm, or_assoc]

/-- The contents are what lists of names lead to. -/
theorem mem_contentsBelow (h : t.Distinct) :
    (p, k) ∈ t.contentsBelow above ↔
      ∃ ns u, ns ≠ [] ∧ t.resolve? ns = some u ∧ joinNames above ns = p ∧ u.kind = k := by
  induction t using Tree.induction generalizing above with
  | file m d =>
    have hnone : ∀ ns, ns ≠ [] → (file m d).resolve? ns = none := by
      rintro (_ | ⟨n, ns⟩) hns
      · exact absurd rfl hns
      · rfl
    constructor
    · simp [contentsBelow]
    · rintro ⟨ns, u, hns, hu, _⟩
      simp [hnone ns hns] at hu
  | directory m d cs ih =>
    obtain ⟨_, _, hcs⟩ := namedBy_directory.mp h
    rw [contentsBelow, mem_contentsAmong]
    constructor
    · rintro ⟨c, hc, hp⟩
      have hchild : (directory m d cs).child? c.name = some c := child?_of_mem h.nodup hc
      rcases hp with he | hp
      · obtain ⟨rfl, rfl⟩ := Prod.mk.inj he
        exact ⟨[c.name], c, by simp, by simp [resolve?_cons, hchild], rfl, rfl⟩
      · obtain ⟨ns, u, _, hu, rfl, rfl⟩ := (ih c hc (hcs c hc)).mp hp
        exact ⟨c.name :: ns, u, by simp, by simp [resolve?_cons, hchild, hu], rfl, rfl⟩
    · rintro ⟨ns, u, hns, hu, rfl, rfl⟩
      obtain ⟨n, ms, rfl⟩ := List.exists_cons_of_ne_nil hns
      obtain ⟨c, hchild, hrest⟩ := Option.bind_eq_some_iff.mp hu
      have hc : c ∈ cs := mem_children_of_child? hchild
      obtain rfl : c.name = n := name_of_child? hchild
      refine ⟨c, hc, ?_⟩
      by_cases hms : ms = []
      · subst hms
        obtain rfl : c = u := by simpa using hrest
        exact .inl rfl
      · exact .inr ((ih c hc (hcs c hc)).mpr ⟨ms, u, hms, hrest, rfl, rfl⟩)

end Tree

def kindAt? (t : Option Tree) (ns : List String) : Option Kind :=
  t.bind (fun t => (t.resolve? ns).map Tree.kind)

theorem kindAt?_nil (t : Option Tree) : kindAt? t [] = t.map Tree.kind := by
  cases t <;> rfl

theorem kindAt?_cons (t : Option Tree) (n : String) (ns : List String) :
    kindAt? t (n :: ns) = kindAt? (observed? t n) ns := by
  cases t with
  | none => rfl
  | some t => cases h : t.child? n <;> simp [kindAt?, Tree.resolve?_cons, h]

theorem kindAt?_append (t : Tree) (ns ms : List String) :
    kindAt? (some t) (ns ++ ms) = kindAt? (t.resolve? ns) ms := by
  rw [kindAt?, Option.bind_some, Tree.resolve?_append]
  cases t.resolve? ns <;> rfl

/-- What names lead to lies in a directory. -/
theorem kindAt?_dropLast {t : Tree} {ns : List String} (hns : ns ≠ [])
    (h : (kindAt? (some t) ns).isSome) : kindAt? (some t) ns.dropLast = some .directory := by
  rw [← List.dropLast_concat_getLast hns, kindAt?_append] at h
  cases hd : t.resolve? ns.dropLast with
  | none => simp [hd, kindAt?] at h
  | some d =>
    rw [hd, kindAt?_cons, observed?_some, kindAt?_nil, Option.isSome_map] at h
    obtain ⟨c, hc⟩ := Option.isSome_iff_exists.mp h
    simp [kindAt?, hd, Tree.kind_of_child? hc]

theorem verdict_eq_compliant {e : Tree} {a : Option Tree} :
    verdict e a = .compliant ↔ some e.kind = a.map Tree.kind := by
  cases a <;> simp [verdict]

theorem isSome_kindAt?_of_statusAt {e a : Tree} {ns : List String} {s : Status}
    (h : statusAt (some e) (some a) ns = some s) :
    ((kindAt? (some e) ns).isSome ↔ s ≠ .extra) ∧
      ((kindAt? (some a) ns).isSome ↔ s ≠ .missing) := by
  simpa [kindAt?] using isSome_resolve?_of_statusAt h

theorem kindAt?_eq_of_statusAt {e a : Tree} {ns : List String}
    (h : statusAt (some e) (some a) ns = some .compliant) :
    kindAt? (some e) ns = kindAt? (some a) ns := by
  have hentries := statusAt_resolve? h
  simp only [Option.bind_some] at hentries
  cases hd : e.resolve? ns with
  | none => simp [hd, statusAt_none_eq_some] at hentries
  | some d =>
    rw [hd, statusAt_nil, Option.some.injEq, verdict_eq_compliant] at hentries
    simp [kindAt?, hd, hentries]

theorem kindAt?_eq_of_compliant {e a : Option Tree}
    (h : ∀ ns s, statusAt e a ns = some s → s = .compliant) (ns : List String) :
    kindAt? e ns = kindAt? a ns := by
  induction ns generalizing e a with
  | nil =>
    rw [kindAt?_nil, kindAt?_nil]
    cases e with
    | none =>
      cases a with
      | none => rfl
      | some a => exact absurd (h [] .extra rfl) (by decide)
    | some e => exact verdict_eq_compliant.mp (h [] _ (statusAt_nil e a))
  | cons n ns ih =>
    rw [kindAt?_cons, kindAt?_cons]
    apply ih
    intro ms s hs
    cases e with
    | none =>
      obtain ⟨_, _, ho⟩ := statusAt_none_eq_some.mp hs
      cases a with
      | none => simp at ho
      | some a => exact absurd (h [] .extra rfl) (by decide)
    | some e =>
      have hv : verdict e a ≠ .typeMismatch := by
        rw [h [] _ (statusAt_nil e a)]
        decide
      refine h (n :: ms) s ?_
      rw [statusAt_cons, if_neg hv]
      exact hs

theorem compliant_of_kindAt?_eq {e a : Option Tree} (h : ∀ ns, kindAt? e ns = kindAt? a ns)
    {ns : List String} {s : Status} (hs : statusAt e a ns = some s) : s = .compliant := by
  induction ns generalizing e a with
  | nil =>
    have hroot := h []
    rw [kindAt?_nil, kindAt?_nil] at hroot
    cases e with
    | none =>
      obtain ⟨_, _, ha⟩ := statusAt_none_eq_some.mp hs
      cases a with
      | none => simp at ha
      | some a => simp at hroot
    | some e =>
      rw [statusAt_nil, verdict_eq_compliant.mpr hroot] at hs
      exact (Option.some.inj hs).symm
  | cons n ns ih =>
    cases e with
    | none => simp [statusAt_none_eq_some] at hs
    | some e =>
      rw [statusAt_cons] at hs
      split at hs
      · simp at hs
      · refine ih (fun ms => ?_) hs
        have hms := h (n :: ms)
        rwa [kindAt?_cons, kindAt?_cons] at hms

/-! ## Reports -/

namespace Results

variable {r : Results} {s : Status}

theorem pathsWith_eq_nil_iff : r.pathsWith s = [] ↔ ∀ p, r.find? p ≠ some s := by
  simp [List.eq_nil_iff_forall_not_mem, mem_pathsWith]

theorem length_pathsWith_compliant (h : ∀ p s, r.find? p = some s → s = .compliant) :
    (r.pathsWith .compliant).length = r.size := by
  have hall : ∀ x ∈ r.entries, decide (x.2 = .compliant) = true := fun x hx =>
    decide_eq_true (h x.1 x.2 (mem_entries.mp hx))
  rw [pathsWith, List.length_map, List.filter_eq_self.mpr hall, size]

end Results

/-- A report is compliant when it lists no issue. -/
theorem Report.isCompliant_iff (r : Report) :
    r.isCompliant ↔ r.missing = [] ∧ r.extra = [] ∧ r.typeMismatch = [] := by
  rw [isCompliant, decide_eq_true_iff]
  simp [counts, Counts.issues, Nat.add_eq_zero_iff, and_assoc]

/-- A report is compliant when no path has another status. -/
theorem isCompliant_ofResults (r : Results) :
    (Report.ofResults r).isCompliant ↔ ∀ p s, r.find? p = some s → s = .compliant := by
  rw [Report.isCompliant_iff]
  simp only [Report.ofResults, Results.pathsWith_eq_nil_iff]
  constructor
  · rintro ⟨hm, he, ht⟩ p s hp
    cases s with
    | compliant => rfl
    | missing => exact absurd hp (hm p)
    | extra => exact absurd hp (he p)
    | typeMismatch => exact absurd hp (ht p)
  · intro h
    refine ⟨?_, ?_, ?_⟩ <;> intro p hp <;> exact absurd (h p _ hp) (by decide)

theorem mem_contents_iff {t : Tree} (h : t.Distinct) {p : String} {k : Kind} :
    (p, k) ∈ t.contents ↔ ∃ ns, ns ≠ [] ∧ kindAt? (some t) ns = some k ∧ joinNames "" ns = p := by
  rw [Tree.contents, Tree.mem_contentsBelow h]
  constructor
  · rintro ⟨ns, u, hns, hu, hp, rfl⟩
    exact ⟨ns, hns, by simp [kindAt?, hu], hp⟩
  · rintro ⟨ns, hns, hk, hp⟩
    obtain ⟨u, hu, hk⟩ := Option.map_eq_some_iff.mp hk
    exact ⟨ns, u, hns, hu, hp, hk⟩

theorem isName_of_kindAt? {t : Tree} (h : t.WellFormed) {ns : List String} {k : Kind}
    (hk : kindAt? (some t) ns = some k) : ∀ n ∈ ns, IsName n := by
  obtain ⟨u, hu, _⟩ := Option.map_eq_some_iff.mp hk
  exact Tree.NamedBy.valid_of_resolve? h hu

theorem kindAt?_of_contents_subset {e a : Tree} (he : e.WellFormed) (ha : a.WellFormed)
    (h : ∀ p k, (p, k) ∈ e.contents → (p, k) ∈ a.contents) {ns : List String} (hns : ns ≠ [])
    {k : Kind} (hk : kindAt? (some e) ns = some k) : kindAt? (some a) ns = some k := by
  have hmem := h _ k ((mem_contents_iff he.distinct).mpr ⟨ns, hns, hk, rfl⟩)
  obtain ⟨ms, hms, hkm, hjoin⟩ := (mem_contents_iff ha.distinct).mp hmem
  obtain rfl : ms = ns :=
    (joinNames_empty_inj hms hns (isName_of_kindAt? ha hkm) (isName_of_kindAt? he hk)).mp hjoin
  exact hkm

/-- Names lead to the same kinds exactly when the contents are the same. -/
theorem kindAt?_eq_iff_contents {e a : Tree} (he : e.WellFormed) (ha : a.WellFormed) :
    (∀ ns, ns ≠ [] → kindAt? (some e) ns = kindAt? (some a) ns) ↔
      ∀ p k, (p, k) ∈ e.contents ↔ (p, k) ∈ a.contents := by
  constructor
  · intro h p k
    rw [mem_contents_iff he.distinct, mem_contents_iff ha.distinct]
    constructor
    · rintro ⟨ns, hns, hk, hp⟩
      exact ⟨ns, hns, h ns hns ▸ hk, hp⟩
    · rintro ⟨ns, hns, hk, hp⟩
      exact ⟨ns, hns, (h ns hns).symm ▸ hk, hp⟩
  · intro h ns hns
    apply Option.ext
    intro k
    constructor
    · exact kindAt?_of_contents_subset he ha (fun p k => (h p k).mp) hns
    · exact kindAt?_of_contents_subset ha he (fun p k => (h p k).mpr) hns

/-- All results are compliant exactly when all names lead to the same kinds. -/
theorem Alignment.forall_results_compliant_iff {l : Alignment} (h : l.WellFormed) :
    (∀ p s, l.results.find? p = some s → s = .compliant) ↔
      l.declared.kind = l.actual.kind ∧
        ∀ ns, ns ≠ [] → kindAt? (some l.declared) ns = kindAt? (some l.actual) ns := by
  constructor
  · intro hall
    have hk : l.declared.kind = l.actual.kind := by
      by_contra hk
      have hentries := entries_results_of_kind_ne h hk
      have hfind : l.results.find? l.declared.name = some .typeMismatch := by
        rw [← Results.mem_entries, hentries]
        exact List.mem_singleton_self _
      exact absurd (hall _ _ hfind) (by decide)
    refine ⟨hk, fun ns _ => kindAt?_eq_of_compliant ?_ ns⟩
    intro ms s hs
    by_cases hms : ms = []
    · subst hms
      rw [statusAt_nil, verdict_eq_compliant.mpr (congrArg some hk)] at hs
      exact (Option.some.inj hs).symm
    · have hnames := isName_of_statusAt h hs
      exact hall _ s ((find?_results_joinNames h hnames).mpr ⟨.inl hms, hs⟩)
  · rintro ⟨hk, hbelow⟩ p s hp
    obtain ⟨ns, hnames, rfl⟩ := exists_joinNames_of_find?_results h hp
    obtain ⟨_, hs⟩ := (find?_results_joinNames h hnames).mp hp
    refine compliant_of_kindAt?_eq (fun ms => ?_) hs
    by_cases hms : ms = []
    · subst hms
      exact congrArg some hk
    · exact hbelow ms hms

/--
A comparison passes exactly when the trees that are lined up are of one kind and have entries of the
same kinds at the same paths. The order of the entries and their descriptions play no part.
-/
theorem isCompliant_compareRoots_iff {e a : Tree} (he : e.WellFormed) (ha : a.WellFormed) :
    LinesUp e a (alignRoots e a) ∧
    ((Report.ofResults (compareRoots e a).value.results).isCompliant ↔
      (alignRoots e a).declared.kind = (alignRoots e a).actual.kind ∧
        ∀ p k, (p, k) ∈ (alignRoots e a).declared.contents ↔
          (p, k) ∈ (alignRoots e a).actual.contents) := by
  have hl : (alignRoots e a).WellFormed := wellFormed_alignRoots he ha
  refine ⟨linesUp_alignRoots e a, ?_⟩
  rw [isCompliant_ofResults, results_compareRoots, Alignment.forall_results_compliant_iff hl,
    kindAt?_eq_iff_contents hl.declared hl.actual]

theorem isCompliant_compareRoots_reordered :
    let e := Tree.branch "src"
      [(Tree.leaf "main.rs").describe "entry point", .branch "lib" [.leaf "mod.rs"]]
    let a := Tree.branch "project"
      [.leaf "README", .branch "src" [.branch "lib" [.leaf "mod.rs"], .leaf "main.rs"]]
    e.WellFormed ∧ a.WellFormed ∧
      (Report.ofResults (compareRoots e a).value.results).isCompliant := by
  intro e a
  have he : e.WellFormed := by decide
  have ha : a.WellFormed := by decide
  have hdeclared : (alignRoots e a).declared.contents =
      [("main.rs", .file), ("lib", .directory), ("lib/mod.rs", .file)] := by decide
  have hactual : (alignRoots e a).actual.contents =
      [("lib", .directory), ("lib/mod.rs", .file), ("main.rs", .file)] := by decide
  refine ⟨he, ha, (isCompliant_compareRoots_iff he ha).2.mpr ⟨by decide, fun p k => ?_⟩⟩
  rw [hdeclared, hactual]
  simp only [List.mem_cons, List.not_mem_nil, or_false]
  tauto

end LayoutCheck
