import LayoutCheck.Proofs.Counterparts

/-!
The results do not depend on where a comparison starts.

Two directories of one name are compared alike when one of them is found inside the other root
(`alignRoots_of_actual_child`, `alignRoots_of_declared_child`). When the observed one goes by
another name and the roots do not match, the same steps are carried out under the declared name, and
only the root is recorded besides (`compareSteps_rename`).
-/

namespace LayoutCheck

variable {e a t : Tree} {q : String}

def Tree.rename (name : String) : Tree → Tree
  | .file _ d => .file name d
  | .directory _ d cs => .directory name d cs

@[simp] theorem Tree.name_rename (q : String) (t : Tree) : (t.rename q).name = q := by
  cases t <;> rfl

@[simp] theorem Tree.kind_rename (q : String) (t : Tree) : (t.rename q).kind = t.kind := by
  cases t <;> rfl

@[simp] theorem Tree.children_rename (q : String) (t : Tree) :
    (t.rename q).children = t.children := by
  cases t <;> rfl

@[simp] theorem Tree.childNames_rename (q : String) (t : Tree) :
    (t.rename q).childNames = t.childNames := by
  simp [childNames]

@[simp] theorem Tree.child?_rename (q : String) (t : Tree) (n : String) :
    (t.rename q).child? n = t.child? n := by
  simp [child?]

@[simp] theorem Tree.directoryChild?_rename (q : String) (t : Tree) (n : String) :
    (t.rename q).directoryChild? n = t.directoryChild? n := by
  simp [directoryChild?]

/-! ## Steps under another name -/

theorem compareBelow_rename (path q : String) (a : Tree) (cs : List Tree) :
    compareBelow path (a.rename q) cs = compareBelow path a cs := by
  induction cs with
  | nil => rfl
  | cons c cs ih => rw [compareBelow, compareBelow, ih, Tree.child?_rename]

/-- The steps for two directories do not look at the observed name, and record the root last. -/
theorem compareSteps_rename (he : e.kind = .directory) (ha : a.kind = .directory) (q : String) :
    compareSteps "" (some (a.rename q)) e = alignedSteps e a ++ [.record e.name .compliant] := by
  cases e with
  | file => simp at he
  | directory n d cs =>
    simp [compareSteps, alignedSteps, ha, compareBelow_rename, extraSteps]

namespace Results

theorem lookup_append (p : String) (es ds : List (String × Status)) :
    lookup p (es ++ ds) = (lookup p es).or (lookup p ds) := by
  simp [lookup, List.find?_append, Option.map_or]

/-- Steps that record one more path in the end insert it. -/
theorem follow_concat (steps : List Step) (p : String) (s : Status) :
    (empty.follow (steps ++ [.record p s])).value = (empty.follow steps).value.insert p s := by
  refine ext_find? fun r => ?_
  rw [find?_insert, find?_follow, find?_follow, recordings_append, lookup_append]
  by_cases h : r = p
  · simp [h, lookup]
  · simp [h, lookup, Ne.symm h]

end Results

/-! ## Other roots -/

theorem alignRoots_of_actual_child (hk : a.kind = .directory) (hname : e.name ≠ t.name)
    (hchild : t.child? e.name = some a) :
    alignRoots e t = ⟨.declaredInsideActual e.name, e, a⟩ :=
  (LinesUp.declaredInsideActual hname hchild hk).alignRoots_eq

theorem alignRoots_of_declared_child (hk : e.kind = .directory) (hname : t.name ≠ a.name)
    (hchild : t.child? a.name = some e) (hnone : a.directoryChild? t.name = none) :
    alignRoots t a = ⟨.actualInsideDeclared a.name, e, a⟩ :=
  (LinesUp.actualInsideDeclared hname (Tree.directoryChild?_eq_none_iff.mp hnone) hchild
    hk).alignRoots_eq

theorem alignRoots_rename (hname : e.name ≠ q) (ha : a.directoryChild? e.name = none)
    (he : e.directoryChild? q = none) :
    alignRoots e (a.rename q) = ⟨.mismatch e.name q, e, a.rename q⟩ := by
  rw [alignRoots, Tree.name_rename, if_neg hname, Tree.directoryChild?_rename, ha, he]

/--
Where a comparison starts does not change what it says. The observed directory may lie in a
directory of another name, the declared one may be declared in one, or the observed one may itself
have another name that nobody else has: the results are those of the two directories by themselves,
in the last case with the root as the one entry more.
-/
theorem compareRoots_elsewhere (h : Counterparts e a) :
    let here := (compareRoots e a).value
    here.matched = .sameName e.name ∧
    (∀ t, t.name ≠ e.name → t.child? e.name = some a →
      (compareRoots e t).value.matched = .declaredInsideActual e.name ∧
        (compareRoots e t).value.results = here.results) ∧
    (∀ t, t.name ≠ e.name → t.child? e.name = some e → a.directoryChild? t.name = none →
      (compareRoots t a).value.matched = .actualInsideDeclared e.name ∧
        (compareRoots t a).value.results = here.results) ∧
    (∀ q, q ≠ e.name → a.directoryChild? e.name = none → e.directoryChild? q = none →
      (compareRoots e (a.rename q)).value.matched = .mismatch e.name q ∧
        here.results.find? e.name = none ∧
        (compareRoots e (a.rename q)).value.results = here.results.insert e.name .compliant ∧
        ∀ p, p ≠ e.name →
          (compareRoots e (a.rename q)).value.results.find? p = here.results.find? p) := by
  intro here
  have hmatched : here.matched = .sameName e.name := congrArg Alignment.matched h.alignRoots_eq
  have hresults : here.results = (Results.empty.follow (alignedSteps e a)).value :=
    congrArg Alignment.results h.alignRoots_eq
  refine ⟨hmatched, ?_, ?_, ?_⟩
  · intro t hname hchild
    have hl := alignRoots_of_actual_child h.actual_kind (Ne.symm hname) hchild
    exact ⟨congrArg Alignment.matched hl, (congrArg Alignment.results hl).trans hresults.symm⟩
  · intro t hname hchild hnone
    rw [h.name_eq] at hname hchild
    have hl := alignRoots_of_declared_child h.declared_kind hname hchild hnone
    rw [← h.name_eq] at hl
    exact ⟨congrArg Alignment.matched hl, (congrArg Alignment.results hl).trans hresults.symm⟩
  · intro q hname hactual hdeclared
    have hl := alignRoots_rename (Ne.symm hname) hactual hdeclared
    have hroot : here.results.find? e.name = none := by
      have hnil : ∀ n ∈ ([] : List String), IsName n := by simp
      rw [Option.eq_none_iff_forall_ne_some]
      intro s hs
      exact ((h.find?_results_joinNames hnil).mp hs).1 rfl
    have hrenamed : (compareRoots e (a.rename q)).value.results =
        here.results.insert e.name .compliant := by
      rw [results_compareRoots, hl, hresults, ← Results.follow_concat,
        ← compareSteps_rename h.declared_kind h.actual_kind q]
      simp [Alignment.results, Alignment.steps, Results.follow]
    refine ⟨congrArg Alignment.matched hl, hroot, hrenamed, fun p hp => ?_⟩
    rw [hrenamed, Results.find?_insert, if_neg hp, Option.or_none]

theorem compareRoots_elsewhere_sample :
    let a := Tree.branch "src"
      [.leaf "docs", .branch "lib" [.leaf "mod.rs"], .branch "tests" [.leaf "all.rs"]]
    let layouts := Tree.branch "layouts" [.leaf "docs", sampleDeclared]
    let here := (compareRoots sampleDeclared a).value.results
    Counterparts sampleDeclared a ∧
      here.entries = [("src/docs", .typeMismatch), ("src/lib", .compliant),
        ("src/lib/io.rs", .missing), ("src/lib/mod.rs", .compliant), ("src/main.rs", .missing),
        ("src/tests", .extra)] ∧
      (compareRoots sampleDeclared sampleObserved).value.results = here ∧
      (compareRoots layouts a).value.results = here ∧
      (compareRoots sampleDeclared (a.rename "checkout")).value.results =
        here.insert "src" .compliant := by
  intro a layouts here
  have h : Counterparts sampleDeclared a := ⟨by decide, by decide, rfl, rfl, rfl⟩
  obtain ⟨_, hinside, hdeclared, hrenamed⟩ := compareRoots_elsewhere h
  exact ⟨h, by decide, (hinside sampleObserved (by decide) rfl).2,
    (hdeclared layouts (by decide) rfl rfl).2, (hrenamed "checkout" (by decide) rfl rfl).2.2.1⟩

end LayoutCheck
