import LayoutCheck.Proofs.Prune
import LayoutCheck.Proofs.Share

/-!
What a comparison says when undeclared names are left out of the observed tree.

Leaving them out does not change how the roots are lined up (`alignRoots_prune`), and takes away
only the extra entries of these names (`statusAt_prune_actual`). So the results are the old ones
without these entries (`compareRoots_prune`).
-/

namespace LayoutCheck

def Results.filter (r : Results) (keep : String × Status → Bool) : Results :=
  ⟨r.entries.filter keep, r.ascending.filter keep⟩

theorem Results.find?_filter {r : Results} {keep : String × Status → Bool} {p : String}
    {s : Status} : (r.filter keep).find? p = some s ↔ r.find? p = some s ∧ keep (p, s) := by
  rw [← mem_entries, ← mem_entries]
  exact List.mem_filter

theorem Results.pathsWith_filter {r : Results} {keep : String × Status → Bool} {s : Status}
    (h : ∀ p, keep (p, s)) : (r.filter keep).pathsWith s = r.pathsWith s := by
  rw [pathsWith, pathsWith, filter, List.filter_filter]
  refine congrArg _ (List.filter_congr ?_)
  rintro ⟨p, u⟩ _
  by_cases hu : u = s
  · simp [hu, h p]
  · simp [hu]

variable {e a : Tree} {out : String → Bool} {ns : List String} {s : Status}

def Tree.Lacks (out : String → Bool) (t : Tree) : Prop := t.All fun u => out u.name = false

theorem Tree.Lacks.child? {t c : Tree} {n : String} (h : t.Lacks out) (hc : t.child? n = some c) :
    out n = false ∧ c.Lacks out :=
  have hbelow := All.child? h hc
  ⟨name_of_child? hc ▸ hbelow.here, hbelow⟩

/-- The walk over both trees misses only the extra entries that are left out. -/
theorem statusAt_prune_actual (h : e.Lacks out) :
    statusAt (some e) (some (a.prune out)) ns = some s ↔
      statusAt (some e) (some a) ns = some s ∧ ¬ (s = .extra ∧ ns.getLast?.any out) := by
  induction ns generalizing e a with
  | nil => simp [verdict]
  | cons n ns ih =>
    have hv : verdict e (some (a.prune out)) = verdict e (some a) := by simp [verdict]
    rw [statusAt_cons, statusAt_cons, hv, observed?_some, observed?_some, Tree.child?_prune]
    split
    · simp
    cases hc : e.child? n with
    | none =>
      rw [statusAt_none_eq_some, statusAt_none_eq_some]
      by_cases hn : out n <;> grind
    | some c =>
      obtain ⟨hn, hlacks⟩ := h.child? hc
      have hlast : (n :: ns).getLast?.any out = ns.getLast?.any out := by
        cases ns <;> simp [hn]
      rw [if_neg (by simp [hn]), hlast]
      cases a.child? n with
      | none =>
        rw [Option.map_none, statusAt_none_actual]
        grind
      | some o => exact ih hlacks

def Alignment.prune (out : String → Bool) (l : Alignment) : Alignment :=
  ⟨l.matched, l.declared, l.actual.prune out⟩

/-- Leaving undeclared names out does not change how the roots are lined up. -/
theorem alignRoots_prune (h : e.Lacks out) (a : Tree) :
    alignRoots e (a.prune out) = (alignRoots e a).prune out := by
  have hname : out e.name = false := h.here
  have hinner : (a.prune out).directoryChild? e.name =
      (a.directoryChild? e.name).map (Tree.prune out) := by
    rw [Tree.directoryChild?, Tree.directoryChild?, Tree.child?_prune, if_neg (by simp [hname]),
      Option.filter_map]
    congr 2
    funext c
    simp [Tree.isDirectory]
  rw [alignRoots, alignRoots, Tree.name_prune, hinner]
  split
  · rfl
  · cases a.directoryChild? e.name with
    | some inner => rfl
    | none => cases e.directoryChild? a.name <;> rfl

theorem LinesUp.lacks_declared {a : Tree} {l : Alignment} (hl : LinesUp e a l) (h : e.Lacks out) :
    l.declared.Lacks out := by
  cases hl with
  | actualInsideDeclared _ _ hc => exact (h.child? hc).2
  | _ => exact h

namespace Alignment

variable {l : Alignment} {p : String}

theorem WellFormed.prune (h : l.WellFormed) : (l.prune out).WellFormed :=
  ⟨h.declared, h.actual.prune⟩

theorem recordsRoot_prune (out : String → Bool) (l : Alignment) :
    (l.prune out).recordsRoot = l.recordsRoot := by
  simp [recordsRoot, prune]

theorem find?_results_prune_joinNames (h : l.WellFormed) (hlacks : l.declared.Lacks out)
    (hns : ∀ n ∈ ns, IsName n) :
    (l.prune out).results.find? (joinNames l.declared.name ns) = some s ↔
      l.results.find? (joinNames l.declared.name ns) = some s ∧
        ¬ (s = .extra ∧ out (lastName (joinNames l.declared.name ns))) := by
  have hpruned : (l.prune out).WellFormed := h.prune
  have hafter := find?_results_joinNames (s := s) hpruned hns
  rw [recordsRoot_prune] at hafter
  refine hafter.trans ?_
  rw [find?_results_joinNames h hns, prune, statusAt_prune_actual hlacks, and_assoc]
  cases ns with
  | nil =>
    have hroot : verdict l.declared (some l.actual) = s → s ≠ .extra := by
      rintro rfl
      exact verdict_ne_extra _ _
    rw [statusAt_nil, Option.some.injEq]
    grind
  | cons n ms =>
    rw [lastName_joinNames h.declared.isName.1 hns (by simp),
      List.getLast?_eq_some_getLast (by simp), Option.any_some]

/-- The results of a pruned tree are the old ones without the extra entries that are left out. -/
theorem find?_results_prune (h : l.WellFormed) (hlacks : l.declared.Lacks out) :
    (l.prune out).results.find? p = some s ↔
      l.results.find? p = some s ∧ ¬ (s = .extra ∧ out (lastName p)) := by
  constructor
  · intro hp
    obtain ⟨ns, hns, rfl⟩ := exists_joinNames_of_find?_results h.prune hp
    exact (find?_results_prune_joinNames h hlacks hns).mp hp
  · intro hp
    obtain ⟨ns, hns, rfl⟩ := exists_joinNames_of_find?_results h hp.1
    exact (find?_results_prune_joinNames h hlacks hns).mpr hp

end Alignment

/--
Leaving out names that are declared nowhere only silences extra entries. The roots are lined up as
before, the results lose the extra entries of these names and nothing else, and the compliance
percentage stays what it was.
-/
theorem compareRoots_prune (he : e.WellFormed) (ha : a.WellFormed)
    (hout : e.Lacks out) :
    let before := (compareRoots e a).value
    let after := (compareRoots e (a.prune out)).value
    after.matched = before.matched ∧
      after.results =
        before.results.filter (fun x => !(decide (x.2 = .extra) && out (lastName x.1))) ∧
      (Report.ofResults after.results).counts.percentage =
        (Report.ofResults before.results).counts.percentage := by
  intro before after
  have hl : (alignRoots e a).WellFormed := wellFormed_alignRoots he ha
  have hafter : after.results = ((alignRoots e a).prune out).results :=
    congrArg Alignment.results (alignRoots_prune hout a)
  have hmatched : after.matched = ((alignRoots e a).prune out).matched :=
    congrArg Alignment.matched (alignRoots_prune hout a)
  have hresults : after.results =
      before.results.filter (fun x => !(decide (x.2 = .extra) && out (lastName x.1))) := by
    refine Results.ext_find? fun p => Option.ext fun s => ?_
    rw [Results.find?_filter, hafter,
      Alignment.find?_results_prune hl ((linesUp_alignRoots e a).lacks_declared hout)]
    by_cases hs : s = .extra <;> simp [before, hs]
  refine ⟨hmatched, hresults, ?_⟩
  refine Counts.percentage_congr fun s hs => ?_
  rw [Report.counts_get, Report.counts_get, Report.pathsWith_ofResults,
    Report.pathsWith_ofResults, hresults, Results.pathsWith_filter (by simp [hs])]

/-- A project around the layout, with files that a build and an editor have left in it. -/
def sampleCluttered : Tree :=
  .branch "project" [.branch "target" [.leaf "log"], .branch "src" [.leaf ".swp", .leaf "notes",
    .leaf "main.rs", .branch "lib" [.leaf "mod.rs", .branch "target" []]]]

theorem compareRoots_prune_cluttered :
    let out := fun n => decide (n ∈ ["target", ".swp"])
    let before := (compareRoots sampleDeclared sampleCluttered).value.results
    let after := (compareRoots sampleDeclared (sampleCluttered.prune out)).value.results
    sampleDeclared.WellFormed ∧ sampleCluttered.WellFormed ∧ sampleDeclared.Lacks out ∧
      before.pathsWith .extra = ["src/.swp", "src/lib/target", "src/notes"] ∧
      after.pathsWith .extra = ["src/notes"] := by
  intro out before after
  have he : sampleDeclared.WellFormed := by decide
  have ha : sampleCluttered.WellFormed := by decide
  have hout : sampleDeclared.Lacks out := by
    simp [Tree.Lacks, out, sampleDeclared, Tree.branch, Tree.leaf, Tree.arrange, Tree.place]
  obtain ⟨_, hafter, _⟩ := compareRoots_prune he ha hout
  refine ⟨he, ha, hout, by decide, ?_⟩
  exact (congrArg (Results.pathsWith · .extra) hafter).trans (by decide)

end LayoutCheck
