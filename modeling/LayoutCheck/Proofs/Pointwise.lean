import LayoutCheck.Proofs.Alignment

/-!
The meaning of the results, path by path.

`Warranted` says which status a list of names deserves, by what it leads to in the declared and in
the observed tree. Between trees of one kind this is the status that the walk over both trees gives
it (`statusAt_eq_some_iff_warranted`), and below roots of one kind the results of a comparison hold
just these statuses (`find?_results_iff_warranted`).
-/

namespace LayoutCheck

variable {e a c o t u : Tree} {n : String} {ns : List String} {s : Status}

/-- The longest beginning of the names that leads anywhere leads to that entry. -/
def Tree.EndsAt (t : Tree) (ns : List String) (u : Tree) : Prop :=
  ∃ near, near <+: ns ∧ t.resolve? near = some u ∧
    ∀ other, other <+: ns → (t.resolve? other).isSome → other.length ≤ near.length

def Warranted (declared actual : Tree) (ns : List String) : Status → Prop
  | .compliant => ∃ d o, declared.resolve? ns = some d ∧ actual.resolve? ns = some o ∧
      d.kind = o.kind
  | .typeMismatch => ∃ d o, declared.resolve? ns = some d ∧ actual.resolve? ns = some o ∧
      d.kind ≠ o.kind
  | .extra => declared.resolve? ns = none ∧ (actual.resolve? ns).isSome ∧
      ∃ d, declared.resolve? ns.dropLast = some d ∧ d.kind = .directory
  | .missing => (declared.resolve? ns).isSome ∧ actual.resolve? ns = none ∧
      ∃ u, actual.EndsAt ns u ∧ u.kind = .directory

/-! ## One name at a time -/

theorem Tree.endsAt_of_child?_eq_none (h : t.child? n = none) : t.EndsAt (n :: ns) u ↔ u = t := by
  constructor
  · rintro ⟨near, hnear, hu, _⟩
    rcases List.prefix_cons_iff.mp hnear with rfl | ⟨near, rfl, _⟩
    · simpa [eq_comm] using hu
    · simp [resolve?_cons, h] at hu
  · rintro rfl
    refine ⟨[], List.nil_prefix, rfl, ?_⟩
    intro other hother hsome
    rcases List.prefix_cons_iff.mp hother with rfl | ⟨other, rfl, _⟩
    · simp
    · simp [resolve?_cons, h] at hsome

theorem Tree.endsAt_of_child? (h : t.child? n = some c) :
    t.EndsAt (n :: ns) u ↔ c.EndsAt ns u := by
  have hstep : ∀ ms, t.resolve? (n :: ms) = c.resolve? ms := by
    intro ms
    simp [resolve?_cons, h]
  constructor
  · rintro ⟨near, hnear, hu, hmax⟩
    rcases List.prefix_cons_iff.mp hnear with rfl | ⟨near, rfl, htail⟩
    · -- the name itself leads further than nothing does
      have hlen := hmax [n] (List.cons_prefix_cons.mpr ⟨rfl, List.nil_prefix⟩) (by simp [hstep])
      simp at hlen
    · refine ⟨near, htail, (hstep near) ▸ hu, ?_⟩
      intro other hother hsome
      have hlen := hmax (n :: other) (List.cons_prefix_cons.mpr ⟨rfl, hother⟩)
        ((hstep other).symm ▸ hsome)
      simpa using hlen
  · rintro ⟨near, hnear, hu, hmax⟩
    refine ⟨n :: near, List.cons_prefix_cons.mpr ⟨rfl, hnear⟩, (hstep near).symm ▸ hu, ?_⟩
    intro other hother hsome
    rcases List.prefix_cons_iff.mp hother with rfl | ⟨other, rfl, htail⟩
    · simp
    · simpa using hmax other htail ((hstep other) ▸ hsome)

/-- Below a name that both trees have, what is deserved is decided by the two entries. -/
theorem warranted_of_child? (he : e.child? n = some c) (ha : a.child? n = some o)
    (hns : ns ≠ []) : Warranted e a (n :: ns) s ↔ Warranted c o ns s := by
  have hlast : (n :: ns).dropLast = n :: ns.dropLast := List.dropLast_cons_of_ne_nil hns
  cases s <;>
    simp [Warranted, Tree.resolve?_cons, he, ha, hlast, Tree.endsAt_of_child? ha]

/-- What is declared and not there is missing, with everything declared below it. -/
theorem statusAt_none_actual :
    statusAt (some e) none ns = some s ↔ s = .missing ∧ (e.resolve? ns).isSome := by
  induction ns generalizing e with
  | nil => simp [verdict, eq_comm]
  | cons n ns ih =>
    rw [statusAt_cons, if_neg (by simp [verdict]), observed?_none, Tree.resolve?_cons]
    cases e.child? n with
    | none => simp
    | some c => simpa using ih

/-- A name that is not declared deserves at most to be extra. -/
theorem warranted_of_declared_none (hk : e.kind = a.kind) (he : e.child? n = none) :
    Warranted e a (n :: ns) s ↔ ns = [] ∧ s = .extra ∧ (a.child? n).isSome := by
  have hres : ∀ ms, e.resolve? (n :: ms) = none := by
    intro ms
    simp [Tree.resolve?_cons, he]
  cases s with
  | compliant | typeMismatch | missing => simp [Warranted, hres]
  | extra =>
    cases ns with
    | nil =>
      cases ho : a.child? n with
      | none => simp [Warranted, Tree.resolve?_cons, ho]
      | some o => simp [Warranted, Tree.resolve?_cons, he, ho, hk, Tree.kind_of_child? ho]
    | cons m ms => simp [Warranted, hres]

/-- Below a declared name that is not there, all that is declared deserves to be missing. -/
theorem warranted_of_actual_none (hk : e.kind = a.kind) (he : e.child? n = some c)
    (ha : a.child? n = none) :
    Warranted e a (n :: ns) s ↔ s = .missing ∧ (c.resolve? ns).isSome := by
  have hdir : a.kind = .directory := hk ▸ Tree.kind_of_child? he
  cases s <;>
    simp [Warranted, Tree.resolve?_cons, he, ha, Tree.endsAt_of_child?_eq_none ha, hdir]

/-- A name that both trees have deserves the verdict on the two entries. -/
theorem warranted_singleton (he : e.child? n = some c) (ha : a.child? n = some o) :
    Warranted e a [n] s ↔ verdict c (some o) = s := by
  by_cases hk : c.kind = o.kind <;> cases s <;>
    simp [Warranted, Tree.resolve?_cons, he, ha, verdict, hk]

/-- Entries of different kinds deserve nothing below themselves. -/
theorem not_warranted_of_kind_ne (hk : e.kind ≠ a.kind) (hns : ns ≠ []) :
    ¬ Warranted e a ns s := by
  obtain ⟨n, ms, rfl⟩ := List.exists_cons_of_ne_nil hns
  cases e with
  | file m d =>
    have hdir : ∀ ks, ∀ f, (Tree.file m d).resolve? ks = some f → f.kind ≠ .directory := by
      rintro (_ | ⟨k, ks⟩) f hf
      · obtain rfl : Tree.file m d = f := by simpa using hf
        simp
      · simp [Tree.resolve?_cons] at hf
    cases s with
    | compliant | typeMismatch | missing => simp [Warranted, Tree.resolve?_cons]
    | extra =>
      rintro ⟨_, _, f, hf, hkind⟩
      exact hdir _ f hf hkind
  | directory m d cs =>
    cases a with
    | file k b =>
      cases s with
      | compliant | typeMismatch | extra => simp [Warranted, Tree.resolve?_cons]
      | missing =>
        rintro ⟨_, _, u, hu, hkind⟩
        obtain rfl := (Tree.endsAt_of_child?_eq_none Tree.child?_file).mp hu
        simp at hkind
    | directory => simp at hk

/-- Between trees of one kind the walk finds what is deserved. -/
theorem statusAt_eq_some_iff_warranted (hk : e.kind = a.kind) (hns : ns ≠ []) :
    statusAt (some e) (some a) ns = some s ↔ Warranted e a ns s := by
  induction ns generalizing e a with
  | nil => exact absurd rfl hns
  | cons n ns ih =>
    have hv : verdict e (some a) ≠ .typeMismatch := by simp [verdict, hk]
    rw [statusAt_cons, if_neg hv, observed?_some]
    cases hc : e.child? n with
    | none => rw [statusAt_none_eq_some, warranted_of_declared_none hk hc]
    | some c =>
      cases ho : a.child? n with
      | none => rw [statusAt_none_actual, warranted_of_actual_none hk hc ho]
      | some o =>
        cases ns with
        | nil => rw [statusAt_nil, warranted_singleton hc ho, Option.some.injEq]
        | cons m ms =>
          rw [warranted_of_child? hc ho (by simp)]
          by_cases hk' : c.kind = o.kind
          · exact ih hk' (by simp)
          · rw [statusAt_cons]
            simp [verdict, hk', not_warranted_of_kind_ne]

/-! ## The results -/

namespace Alignment

variable {l : Alignment}

/-- A path below the root has the status that its names deserve. -/
theorem find?_results_iff_warranted (h : l.WellFormed) (hk : l.declared.kind = l.actual.kind)
    (hns : ns ≠ []) (hnames : ∀ n ∈ ns, IsName n) :
    l.results.find? (joinNames l.declared.name ns) = some s ↔
      Warranted l.declared l.actual ns s := by
  rw [find?_results_joinNames h hnames, statusAt_eq_some_iff_warranted hk hns]
  simp [hns]

/-- Of roots of one kind only one that is recorded itself has a status. -/
theorem find?_results_root_of_kind_eq (h : l.WellFormed) (hk : l.declared.kind = l.actual.kind) :
    l.results.find? l.declared.name = some s ↔ s = .compliant ∧ l.recordsRoot := by
  have hverdict : verdict l.declared (some l.actual) = .compliant := by simp [verdict, hk]
  rw [find?_results_root h, hverdict]
  constructor
  · rintro ⟨hr, rfl⟩
    exact ⟨rfl, hr⟩
  · rintro ⟨rfl, hr⟩
    exact ⟨hr, rfl⟩

end Alignment

/--
The statuses of the two trees that are lined up. Of roots of one kind, each path below the root has
the status that its names deserve, and the root has one if the roots do not match. Roots of
different kinds are the only entry. No other path has a status.
-/
theorem find?_compareRoots_iff (he : e.WellFormed) (ha : a.WellFormed) :
    let E := (alignRoots e a).declared
    let A := (alignRoots e a).actual
    let results := (compareRoots e a).value.results
    LinesUp e a ⟨(compareRoots e a).value.matched, E, A⟩ ∧
    (E.kind = A.kind →
      (∀ ns s, ns ≠ [] → (∀ n ∈ ns, IsName n) →
        (results.find? ("/".intercalate (E.name :: ns)) = some s ↔ Warranted E A ns s)) ∧
      (∀ s, results.find? E.name = some s ↔
        s = .compliant ∧ (compareRoots e a).value.matched = .mismatch e.name a.name)) ∧
    (E.kind ≠ A.kind → results.entries = [(E.name, .typeMismatch)]) ∧
    ∀ p s, results.find? p = some s →
      ∃ ns, (∀ n ∈ ns, IsName n) ∧ p = "/".intercalate (E.name :: ns) := by
  have hl : (alignRoots e a).WellFormed := wellFormed_alignRoots he ha
  have hjoin := joinNames_eq_intercalate hl.declared.isName.1
  refine ⟨linesUp_alignRoots e a, fun hk => ⟨?_, ?_⟩, Alignment.entries_results_of_kind_ne hl, ?_⟩
  · intro ns s hns hnames
    rw [← hjoin]
    exact Alignment.find?_results_iff_warranted hl hk hns hnames
  · intro s
    have hroot := Alignment.find?_results_root_of_kind_eq (s := s) hl hk
    rw [(linesUp_alignRoots e a).recordsRoot_iff, or_iff_left (by simpa using hk)] at hroot
    exact hroot
  · intro p s hp
    obtain ⟨ns, hnames, rfl⟩ := Alignment.exists_joinNames_of_find?_results hl hp
    exact ⟨ns, hnames, hjoin ns⟩

def sampleDeclared : Tree :=
  .branch "src" [.branch "lib" [.leaf "mod.rs", .leaf "io.rs"], .leaf "main.rs", .branch "docs" []]

/-- A project around the layout, in which some of it is missing, extra or of the other kind. -/
def sampleObserved : Tree :=
  .branch "project" [.leaf "README", .branch "src" [.leaf "docs", .branch "lib" [.leaf "mod.rs"],
    .branch "tests" [.leaf "all.rs"]]]

theorem find?_compareRoots_sample :
    sampleDeclared.WellFormed ∧ sampleObserved.WellFormed ∧
      (alignRoots sampleDeclared sampleObserved).declared.kind =
        (alignRoots sampleDeclared sampleObserved).actual.kind ∧
      let results := (compareRoots sampleDeclared sampleObserved).value.results
      results.find? "src/lib/io.rs" = some .missing ∧
        results.find? "src/docs" = some .typeMismatch ∧
        results.find? "src/tests" = some .extra := by
  have he : sampleDeclared.WellFormed := by decide
  have ha : sampleObserved.WellFormed := by decide
  have hk : (alignRoots sampleDeclared sampleObserved).declared.kind =
      (alignRoots sampleDeclared sampleObserved).actual.kind := by decide
  obtain ⟨_, hsame, _, _⟩ := find?_compareRoots_iff he ha
  obtain ⟨hpath, _⟩ := hsame hk
  refine ⟨he, ha, hk, ?_, ?_, ?_⟩
  · refine (hpath ["lib", "io.rs"] .missing (by decide) (by decide)).mpr
      ⟨rfl, rfl, .branch "lib" [.leaf "mod.rs"], ?_, rfl⟩
    exact (Tree.endsAt_of_child? rfl).mpr ((Tree.endsAt_of_child?_eq_none rfl).mpr rfl)
  · exact (hpath ["docs"] .typeMismatch (by decide) (by decide)).mpr ⟨_, _, rfl, rfl, by decide⟩
  · exact (hpath ["tests"] .extra (by decide) (by decide)).mpr
      ⟨rfl, rfl, sampleDeclared, rfl, rfl⟩

end LayoutCheck
