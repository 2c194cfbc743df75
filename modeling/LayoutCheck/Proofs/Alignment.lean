import LayoutCheck.Proofs.Findings

/-!
The results of a comparison of two whole trees.

`LinesUp` says which two trees are compared (`linesUp_alignRoots`, `LinesUp.alignRoots_eq`). What is
recorded for them are their findings, the root's only if it is recorded itself (`recordings_steps`),
and no path is recorded twice (`nodup_recordings_steps`). So the results say of each path what was
found there (`find?_results`).
-/

namespace LayoutCheck

/-- Which two trees are compared, and why. Roots of one name stand for each other. Else the declared
root stands for a directory of its name in the observed one; else a directory of the observed root's
name in the declared one stands for that root; else the roots do not match. -/
inductive LinesUp (e a : Tree) : Alignment → Prop where
  | sameName : e.name = a.name → LinesUp e a ⟨.sameName e.name, e, a⟩
  | declaredInsideActual {inner : Tree} :
      e.name ≠ a.name → a.child? e.name = some inner → inner.kind = .directory →
      LinesUp e a ⟨.declaredInsideActual e.name, e, inner⟩
  | actualInsideDeclared {inner : Tree} :
      e.name ≠ a.name → (∀ c, a.child? e.name = some c → c.kind ≠ .directory) →
      e.child? a.name = some inner → inner.kind = .directory →
      LinesUp e a ⟨.actualInsideDeclared a.name, inner, a⟩
  | mismatch :
      e.name ≠ a.name → (∀ c, a.child? e.name = some c → c.kind ≠ .directory) →
      (∀ c, e.child? a.name = some c → c.kind ≠ .directory) →
      LinesUp e a ⟨.mismatch e.name a.name, e, a⟩

theorem Tree.directoryChild?_eq_some_iff {t c : Tree} {n : String} :
    t.directoryChild? n = some c ↔ t.child? n = some c ∧ c.kind = .directory := by
  simp [directoryChild?, isDirectory, Option.filter_eq_some_iff]

theorem Tree.directoryChild?_eq_none_iff {t : Tree} {n : String} :
    t.directoryChild? n = none ↔ ∀ c, t.child? n = some c → c.kind ≠ .directory := by
  simp [directoryChild?, isDirectory, Option.filter_eq_none_iff]

theorem linesUp_alignRoots (e a : Tree) : LinesUp e a (alignRoots e a) := by
  unfold alignRoots
  split
  · rename_i hn
    exact .sameName hn
  · rename_i hn
    split
    · rename_i inner ha
      obtain ⟨hc, hk⟩ := Tree.directoryChild?_eq_some_iff.mp ha
      exact .declaredInsideActual hn hc hk
    · rename_i ha
      have ha := Tree.directoryChild?_eq_none_iff.mp ha
      split
      · rename_i inner he
        obtain ⟨hc, hk⟩ := Tree.directoryChild?_eq_some_iff.mp he
        exact .actualInsideDeclared hn ha hc hk
      · rename_i he
        exact .mismatch hn ha (Tree.directoryChild?_eq_none_iff.mp he)

/-- Roots are lined up in one way only. -/
theorem LinesUp.alignRoots_eq {e a : Tree} {l : Alignment} (h : LinesUp e a l) :
    alignRoots e a = l := by
  cases h with
  | sameName hn => rw [alignRoots, if_pos hn]
  | declaredInsideActual hn hc hk =>
    rw [alignRoots, if_neg hn, Tree.directoryChild?_eq_some_iff.mpr ⟨hc, hk⟩]
  | actualInsideDeclared hn ha hc hk =>
    rw [alignRoots, if_neg hn, Tree.directoryChild?_eq_none_iff.mpr ha,
      Tree.directoryChild?_eq_some_iff.mpr ⟨hc, hk⟩]
  | mismatch hn ha he =>
    rw [alignRoots, if_neg hn, Tree.directoryChild?_eq_none_iff.mpr ha,
      Tree.directoryChild?_eq_none_iff.mpr he]

namespace Alignment

variable {l : Alignment} {p : String} {ns : List String} {s : Status}

structure WellFormed (l : Alignment) : Prop where
  declared : l.declared.WellFormed
  actual : l.actual.WellFormed

/-- The roots have an entry of their own: they do not match, or not in kind. -/
def recordsRoot (l : Alignment) : Bool :=
  match l.matched with
  | .mismatch .. => true
  | _ => l.declared.kind ≠ l.actual.kind

def findings (l : Alignment) : List Finding :=
  if l.recordsRoot then LayoutCheck.findings (some l.actual) l.declared
  else findingsBelow (some l.actual) l.declared

def results (l : Alignment) : Results := (Results.empty.follow l.steps).value

end Alignment

namespace LinesUp

variable {e a : Tree} {l : Alignment}

theorem wellFormed_declared (h : LinesUp e a l) (he : e.WellFormed) : l.declared.WellFormed := by
  cases h with
  | actualInsideDeclared _ _ hc => exact Tree.All.child? he hc
  | _ => exact he

theorem wellFormed_actual (h : LinesUp e a l) (ha : a.WellFormed) : l.actual.WellFormed := by
  cases h with
  | declaredInsideActual _ hc => exact Tree.All.child? ha hc
  | _ => exact ha

theorem recordsRoot_iff (h : LinesUp e a l) :
    l.recordsRoot ↔ l.matched = .mismatch e.name a.name ∨ l.declared.kind ≠ l.actual.kind := by
  cases h <;> simp [Alignment.recordsRoot]

end LinesUp

theorem wellFormed_alignRoots {e a : Tree} (he : e.WellFormed) (ha : a.WellFormed) :
    (alignRoots e a).WellFormed :=
  ⟨(linesUp_alignRoots e a).wellFormed_declared he, (linesUp_alignRoots e a).wellFormed_actual ha⟩

@[simp] theorem results_compareRoots (e a : Tree) :
    (compareRoots e a).value.results = (alignRoots e a).results := rfl

namespace Alignment

variable {l : Alignment} {p : String} {ns : List String} {s : Status}

theorem recordings_alignedSteps (e a : Tree) :
    recordings (alignedSteps e a) =
      (if e.kind = a.kind then findingsBelow (some a) e
       else LayoutCheck.findings (some a) e).map (Finding.entry e.name) := by
  cases e with
  | file n d =>
    cases a with
    | file => simp [alignedSteps, findingsBelow]
    | directory => simp [alignedSteps, recordings_compareSteps]
  | directory n d cs =>
    cases a with
    | file => simp [alignedSteps, recordings_compareSteps]
    | directory m b os =>
      have hchild : ∀ c ∈ cs, ∀ above actual, recordings (compareSteps above actual c) =
          (LayoutCheck.findings actual c).map (Finding.entry (joinPath above c.name)) :=
        fun c _ above actual => recordings_compareSteps above actual c
      have hcs := recordings_compareBelow hchild n (.directory m b os)
      simp [alignedSteps, findingsBelow, verdict, hcs, recordings_extraSteps]

/-- The steps record the findings, each at its path below the declared root. -/
theorem recordings_steps (l : Alignment) :
    recordings l.steps = l.findings.map (Finding.entry l.declared.name) := by
  obtain ⟨matched, e, a⟩ := l
  cases matched with
  | mismatch =>
    simp [steps, findings, recordsRoot, recordings_compareSteps]
  | sameName | declaredInsideActual | actualInsideDeclared =>
    by_cases hk : e.kind = a.kind <;>
      simp [steps, findings, recordsRoot, recordings_alignedSteps, hk]

/-- What is found at a list of names is what the trees say about it. -/
theorem mem_findings (h : l.WellFormed) :
    ⟨ns, s⟩ ∈ l.findings ↔
      (ns ≠ [] ∨ l.recordsRoot) ∧ statusAt (some l.declared) (some l.actual) ns = some s := by
  rw [← LayoutCheck.mem_findings h.declared.distinct, findings]
  split
  · simp [*]
  · cases ns with
    | nil =>
      have : ⟨[], s⟩ ∉ findingsBelow (some l.actual) l.declared :=
        fun h => names_ne_nil_of_mem_findingsBelow h rfl
      simp [*]
    | cons n ns => simp [mem_findings_cons]

theorem nodup_findings (h : l.WellFormed) : (l.findings.map Finding.names).Nodup := by
  have hactual : ∀ a ∈ some l.actual, a.Distinct := by simpa using h.actual.distinct
  have hall := LayoutCheck.nodup_findings h.declared.distinct hactual
  rw [findings]
  split
  · exact hall
  · rw [LayoutCheck.findings, List.map_append] at hall
    exact (List.nodup_append.mp hall).1

theorem isName_of_statusAt (h : l.WellFormed)
    (hs : statusAt (some l.declared) (some l.actual) ns = some s) : ∀ n ∈ ns, IsName n := by
  have hd : ∀ t ∈ some l.declared, t.NamedBy IsName := by
    rintro _ ⟨⟩
    exact h.declared
  have ha : ∀ t ∈ some l.actual, t.NamedBy IsName := by
    rintro _ ⟨⟩
    exact h.actual
  exact valid_of_statusAt hd ha hs

theorem isName_of_mem_findings (h : l.WellFormed) (hf : ⟨ns, s⟩ ∈ l.findings) :
    ∀ n ∈ ns, IsName n :=
  isName_of_statusAt h ((mem_findings h).mp hf).2

/-- No path is recorded twice. -/
theorem nodup_recordings_steps (h : l.WellFormed) : ((recordings l.steps).map Prod.fst).Nodup := by
  have hpaths : (recordings l.steps).map Prod.fst =
      (l.findings.map Finding.names).map (joinNames l.declared.name) := by
    rw [recordings_steps]
    simp [Function.comp_def, Finding.entry]
  rw [hpaths]
  refine (nodup_findings h).map_on ?_
  intro ns hns ms hms he
  obtain ⟨f, hf, rfl⟩ := List.mem_map.mp hns
  obtain ⟨g, hg, rfl⟩ := List.mem_map.mp hms
  exact (joinNames_inj h.declared.isName (isName_of_mem_findings h hf)
    (isName_of_mem_findings h hg)).mp he

theorem find?_results (h : l.WellFormed) :
    l.results.find? p = some s ↔ ∃ f ∈ l.findings, f.entry l.declared.name = (p, s) := by
  rw [results, Results.find?_follow_empty (nodup_recordings_steps h), recordings_steps,
    List.mem_map]

/-- Every path in the results joins names below the declared root. -/
theorem exists_joinNames_of_find?_results (h : l.WellFormed) (hp : l.results.find? p = some s) :
    ∃ ns, (∀ n ∈ ns, IsName n) ∧ p = joinNames l.declared.name ns := by
  obtain ⟨⟨ns, u⟩, hf, he⟩ := (find?_results h).mp hp
  exact ⟨ns, isName_of_mem_findings h hf, (Prod.mk.inj he).1.symm⟩

/-- The results say of the path below the root what the trees say of its names. -/
theorem find?_results_joinNames (h : l.WellFormed) (hns : ∀ n ∈ ns, IsName n) :
    l.results.find? (joinNames l.declared.name ns) = some s ↔
      (ns ≠ [] ∨ l.recordsRoot) ∧ statusAt (some l.declared) (some l.actual) ns = some s := by
  rw [find?_results h, ← mem_findings h]
  constructor
  · rintro ⟨⟨ms, u⟩, hf, he⟩
    obtain ⟨hp, rfl⟩ := Prod.mk.inj he
    obtain rfl : ms = ns :=
      (joinNames_inj h.declared.isName (isName_of_mem_findings h hf) hns).mp hp
    exact hf
  · intro hf
    exact ⟨_, hf, rfl⟩

/-- A root that is recorded has the status that its kind deserves. -/
theorem find?_results_root (h : l.WellFormed) :
    l.results.find? l.declared.name = some s ↔
      l.recordsRoot ∧ verdict l.declared (some l.actual) = s := by
  have hnil : ∀ n ∈ ([] : List String), IsName n := by simp
  rw [← joinNames_nil l.declared.name, find?_results_joinNames h hnil]
  simp

/-- Roots of different kinds are all that is recorded. -/
theorem entries_results_of_kind_ne (h : l.WellFormed) (hk : l.declared.kind ≠ l.actual.kind) :
    l.results.entries = [(l.declared.name, .typeMismatch)] := by
  have hroot : l.recordsRoot = true := by
    unfold recordsRoot
    split
    · rfl
    · simpa using hk
  have hperm := Results.perm_entries_follow_empty (nodup_recordings_steps h)
  rw [recordings_steps, findings, if_pos hroot, findings_of_kind_ne hk] at hperm
  exact List.perm_singleton.mp hperm

end Alignment

end LayoutCheck
