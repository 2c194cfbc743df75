import LayoutCheck.Proofs.Conservation
import LayoutCheck.Proofs.Counterparts
import LayoutCheck.Proofs.Edit

/-!
The listings of a report as a plan that repairs the observed tree.

Deleting what is extra, replacing what is mismatched and inserting the topmost missing entries are
edits that fit the observed tree (`NeedsRepair.fits`) and are apart from each other
(`NeedsRepair.not_prefix`). Wherever the trees differ one of them makes a difference
(`exists_needsRepair`), so all of them together, in any order, leave nothing but compliant paths
(`repairs_compareRoots`).
-/

namespace LayoutCheck

variable {e a u : Tree} {ns ms : List String} {s r : Status} {p : String} {x y : Edit}

def Action.cause : Action → Status
  | delete => .extra
  | replace => .typeMismatch
  | insert => .missing

theorem Action.exists_cause (h : s ≠ .compliant) : ∃ action : Action, action.cause = s := by
  cases s with
  | compliant => exact absurd rfl h
  | missing => exact ⟨.insert, rfl⟩
  | extra => exact ⟨.delete, rfl⟩
  | typeMismatch => exact ⟨.replace, rfl⟩

theorem Action.cause_inj {action other : Action} : action.cause = other.cause ↔ action = other := by
  cases action <;> cases other <;> decide

/-- Extra entries are deleted, mismatched ones replaced, and missing ones inserted with everything
below them. -/
def Report.repairs (r : Report) : List Edit :=
  r.extra.map (⟨.delete, ·⟩) ++ r.typeMismatch.map (⟨.replace, ·⟩) ++
    r.topmostMissing.map (⟨.insert, ·⟩)

/-- An entry below the roots that does not comply, in a directory that does. -/
structure NeedsRepair (e a : Tree) (ns : List String) (s : Status) : Prop where
  ne_nil : ns ≠ []
  ne_compliant : s ≠ .compliant
  status : statusAt (some e) (some a) ns = some s
  parent : statusAt (some e) (some a) ns.dropLast = some .compliant

/-! ## The plan -/

theorem needsRepair_iff_of_ne_missing (hs : s ≠ .compliant) (hm : s ≠ .missing) :
    NeedsRepair e a ns s ↔ ns ≠ [] ∧ statusAt (some e) (some a) ns = some s := by
  constructor
  · intro h
    exact ⟨h.ne_nil, h.status⟩
  · rintro ⟨hns, h⟩
    exact ⟨hns, hs, h, (status_parent hns h).resolve_right fun hp => hm hp.2⟩

theorem needsRepair_missing_iff :
    NeedsRepair e a ns .missing ↔ ns ≠ [] ∧ statusAt (some e) (some a) ns = some .missing ∧
      statusAt (some e) (some a) ns.dropLast ≠ some .missing := by
  constructor
  · intro h
    refine ⟨h.ne_nil, h.status, ?_⟩
    rw [h.parent]
    decide
  · rintro ⟨hns, h, hp⟩
    exact ⟨hns, by decide, h, (status_parent hns h).resolve_right fun hm => hp hm.1⟩

theorem mem_repairs_iff (report : Report) : x ∈ report.repairs ↔
    x.path ∈ match x.action with
      | .delete => report.extra
      | .replace => report.typeMismatch
      | .insert => report.topmostMissing := by
  obtain ⟨_ | _ | _, p⟩ := x <;> simp [Report.repairs]

/-- The plan deals with just the entries that need a repair. -/
theorem mem_repairs (h : Counterparts e a) :
    x ∈ (Report.ofResults (compareRoots e a).value.results).repairs ↔
      ∃ ns, joinNames e.name ns = x.path ∧ NeedsRepair e a ns x.action.cause := by
  have hlisted : ∀ s, s ≠ .compliant → s ≠ .missing →
      (x.path ∈ (compareRoots e a).value.results.pathsWith s ↔
        ∃ ns, joinNames e.name ns = x.path ∧ NeedsRepair e a ns s) := by
    intro s hs hm
    rw [Results.mem_pathsWith, h.find?_results]
    simp only [needsRepair_iff_of_ne_missing hs hm, and_left_comm]
  rw [mem_repairs_iff]
  cases hx : x.action with
  | delete => exact hlisted .extra (by decide) (by decide)
  | replace => exact hlisted .typeMismatch (by decide) (by decide)
  | insert =>
    refine h.mem_topmostMissing.trans ?_
    simp only [Action.cause, needsRepair_missing_iff, and_left_comm]

theorem nodup_repairs (r : Results) : (Report.ofResults r).repairs.Nodup := by
  have hpaths : ∀ (action : Action) {ps : List String}, ps.Nodup →
      (ps.map (Edit.mk action)).Nodup := by
    intro action ps hps
    exact hps.map fun p q h => congrArg Edit.path h
  have hextra := hpaths .delete (r.nodup_pathsWith .extra)
  have hmismatch := hpaths .replace (r.nodup_pathsWith .typeMismatch)
  have hmissing : ((Report.ofResults r).topmostMissing.map (Edit.mk .insert)).Nodup :=
    hpaths .insert ((r.nodup_pathsWith .missing).filter _)
  refine List.nodup_append.mpr ⟨List.nodup_append.mpr ⟨hextra, hmismatch, ?_⟩, hmissing, ?_⟩
  · rintro _ hx _ hy rfl
    obtain ⟨_, _, rfl⟩ := List.mem_map.mp hx
    simp at hy
  · rintro _ hx _ hy rfl
    obtain ⟨_, _, rfl⟩ := List.mem_map.mp hy
    simp at hx

/-! ## The edits are possible and do not touch each other -/

theorem names_of_path (h : Counterparts e a) (hs : statusAt (some e) (some a) ns = some s)
    (hx : joinNames e.name ns = x.path) : x.names = ns := by
  rw [Edit.names, ← hx, namesOf_joinNames h.declared.isName (h.isName_of_statusAt hs),
    List.tail_cons]

/-- An entry that needs a repair lies in a directory of the observed tree. -/
theorem NeedsRepair.parent_directory (hr : NeedsRepair e a ns s) :
    kindAt? (some a) ns.dropLast = some .directory := by
  have hkinds : kindAt? (some e) ns.dropLast = kindAt? (some a) ns.dropLast :=
    kindAt?_eq_of_statusAt hr.parent
  obtain ⟨hdeclared, hactual⟩ := isSome_kindAt?_of_statusAt hr.status
  by_cases hs : s = .missing
  · have hthere : (kindAt? (some e) ns).isSome := hdeclared.mpr (by rw [hs]; decide)
    rw [← hkinds]
    exact kindAt?_dropLast hr.ne_nil hthere
  · exact kindAt?_dropLast hr.ne_nil (hactual.mpr hs)

theorem NeedsRepair.fits (h : Counterparts e a) (hr : NeedsRepair e a ns x.action.cause)
    (hx : joinNames e.name ns = x.path) : x.Fits e a := by
  have hnames : x.names = ns := names_of_path h hr.status hx
  obtain ⟨hdeclared, hactual⟩ := isSome_kindAt?_of_statusAt hr.status
  have hinsert : x.action.cause ≠ .missing ↔ x.action ≠ .insert := by
    cases x.action <;> decide
  have hdelete : x.action.cause ≠ .extra ↔ x.action ≠ .delete := by
    cases x.action <;> decide
  refine ⟨?_, ?_, ?_, ?_, ?_, ?_⟩ <;> rw [hnames]
  · rw [← h.name_eq, hx]
  · exact h.isName_of_statusAt hr.status
  · exact hr.ne_nil
  · exact hr.parent_directory
  · exact hactual.trans hinsert
  · exact hdeclared.trans hdelete

/-- Of two entries that need a repair none lies below the other. -/
theorem NeedsRepair.not_prefix (hn : NeedsRepair e a ns s) (hm : NeedsRepair e a ms r)
    (hne : ns ≠ ms) : ¬ ns <+: ms := by
  rintro ⟨ks, rfl⟩
  have hks : ks ≠ [] := by
    rintro rfl
    simp at hne
  have hparent := hm.parent
  rw [List.dropLast_append_of_ne_nil hks] at hparent
  have habove : statusAt (some e) (some a) ns = some .compliant := by
    by_cases hk : ks.dropLast = []
    · rwa [hk, List.append_nil] at hparent
    · exact (status_above hk hparent).resolve_right fun hmissing => by simp at hmissing
  rw [hn.status, Option.some.injEq] at habove
  exact hn.ne_compliant habove

theorem pairwise_apart_repairs (h : Counterparts e a) :
    (Report.ofResults (compareRoots e a).value.results).repairs.Pairwise Edit.Apart := by
  refine (nodup_repairs _).pairwise_of_forall_ne fun x hx y hy hne => ?_
  obtain ⟨ns, hxp, hxr⟩ := (mem_repairs h).mp hx
  obtain ⟨ms, hyp, hyr⟩ := (mem_repairs h).mp hy
  have hxf := hxr.fits h hxp
  have hyf := hyr.fits h hyp
  rw [Edit.apart_iff h.actual.isName hxf.path hyf.path hxf.names hyf.names,
    names_of_path h hxr.status hxp, names_of_path h hyr.status hyp]
  have hnames : ns ≠ ms := by
    rintro rfl
    have hcause : x.action.cause = y.action.cause :=
      Option.some.inj (hxr.status.symm.trans hyr.status)
    exact hne (Edit.ext (Action.cause_inj.mp hcause) (hxp.symm.trans hyp))
  exact ⟨hxr.not_prefix hyr hnames, hyr.not_prefix hxr hnames.symm⟩

/-! ## Nothing else differs -/

/-- Where the trees differ, an entry on the way needs a repair. -/
theorem exists_needsRepair (hk : e.kind = a.kind) (h : kindAt? (some e) ms ≠ kindAt? (some a) ms) :
    ∃ ns s, ns <+: ms ∧ NeedsRepair e a ns s := by
  induction ms generalizing e a with
  | nil => simp [kindAt?_nil, hk] at h
  | cons m ms ih =>
    have hroot : verdict e (some a) = .compliant := by simp [verdict, hk]
    have hstep : ∀ ns, statusAt (some e) (some a) (m :: ns) =
        statusAt (e.child? m) (a.child? m) ns := by
      intro ns
      rw [statusAt_cons, hroot, if_neg (by decide), observed?_some]
    have hhere : ∀ s, s ≠ .compliant → statusAt (e.child? m) (a.child? m) [] = some s →
        ∃ ns s, ns <+: m :: ms ∧ NeedsRepair e a ns s := by
      intro s hs hst
      exact ⟨[m], s, by simp, by simp, hs, (hstep []).trans hst, by simp [hroot]⟩
    rw [kindAt?_cons, kindAt?_cons, observed?_some, observed?_some] at h
    cases hc : e.child? m with
    | none =>
      cases ho : a.child? m with
      | none => simp [hc, ho] at h
      | some o => exact hhere .extra (by decide) (by rw [hc, ho]; rfl)
    | some c =>
      cases ho : a.child? m with
      | none => exact hhere .missing (by decide) (by rw [hc, ho]; rfl)
      | some o =>
        by_cases hk : c.kind = o.kind
        · rw [hc, ho] at h
          obtain ⟨ns, s, hns, hr⟩ := ih hk h
          rw [hc, ho] at hstep
          refine ⟨m :: ns, s, List.cons_prefix_cons.mpr ⟨rfl, hns⟩, by simp, hr.ne_compliant,
            (hstep ns).trans hr.status, ?_⟩
          rw [List.dropLast_cons_of_ne_nil hr.ne_nil]
          exact (hstep _).trans hr.parent
        · exact hhere .typeMismatch (by decide) (by simp [hc, ho, verdict, hk])

/-- Edits that fit leave no difference when the plan has all of them. -/
theorem kindAt?_eq_of_merged (h : Counterparts e a) {order : List Edit}
    (horder : ∀ x ∈ (Report.ofResults (compareRoots e a).value.results).repairs, x ∈ order)
    (hu : Merged e a (fun ms => ∃ x ∈ order, x.names <+: ms) u) (ms : List String) :
    kindAt? (some e) ms = kindAt? (some u) ms := by
  by_cases hhere : ∃ x ∈ order, x.names <+: ms
  · exact (hu.of_here ms hhere).symm
  · rw [hu.of_not_here ms hhere]
    by_contra hne
    obtain ⟨ns, s, hns, hr⟩ := exists_needsRepair h.kind_eq hne
    obtain ⟨action, rfl⟩ := Action.exists_cause hr.ne_compliant
    have hmem := (mem_repairs (x := ⟨action, joinNames e.name ns⟩) h).mpr ⟨ns, rfl, hr⟩
    have hnames : (Edit.mk action (joinNames e.name ns)).names = ns :=
      names_of_path h hr.status rfl
    exact hhere ⟨_, horder _ hmem, hnames.symm ▸ hns⟩

/-! ## The repaired tree -/

theorem Counterparts.of_merged (h : Counterparts e a) {here : List String → Prop}
    (hu : Merged e a here u) (hkinds : ∀ ms, kindAt? (some e) ms = kindAt? (some u) ms) :
    Counterparts e u := by
  refine ⟨h.declared, hu.wellFormed, h.declared_kind, ?_, h.name_eq.trans hu.name_eq.symm⟩
  have hroot := hkinds []
  rw [kindAt?_nil, kindAt?_nil] at hroot
  exact (Option.some.inj hroot).symm.trans h.declared_kind

/-- Trees with entries of the same kinds comply in all their paths. -/
theorem Counterparts.compliant_of_kindAt?_eq (h : Counterparts e a)
    (hkinds : ∀ ms, kindAt? (some e) ms = kindAt? (some a) ms) :
    ∀ p s, (compareRoots e a).value.results.find? p = some s → s = .compliant := by
  intro p s hp
  obtain ⟨_, _, _, hs⟩ := h.find?_results.mp hp
  exact LayoutCheck.compliant_of_kindAt?_eq hkinds hs

/-- When all paths comply they are the paths of the declared entries. -/
theorem Counterparts.size_results (h : Counterparts e a)
    (hall : ∀ p s, (compareRoots e a).value.results.find? p = some s → s = .compliant) :
    (compareRoots e a).value.results.size = e.descendantCount := by
  have hresults : (compareRoots e a).value.results =
      Alignment.results ⟨.sameName e.name, e, a⟩ := by
    rw [results_compareRoots, h.alignRoots_eq]
  rw [hresults] at hall ⊢
  have hnil : ∀ s, s ≠ .compliant →
      (Alignment.results ⟨.sameName e.name, e, a⟩).pathsWith s = [] := fun s hs =>
    Results.pathsWith_eq_nil_iff.mpr fun p hp => hs (hall p s hp)
  have hroot : Alignment.recordsRoot ⟨.sameName e.name, e, a⟩ = false := by
    simp [Alignment.recordsRoot, h.kind_eq]
  have hcount := Alignment.declared_conservation h.wellFormed
  rw [Alignment.isSome_find?_root h.wellFormed, hroot] at hcount
  simp only [Report.counts, Counts.expectedTotal, Report.ofResults, hnil .missing (by decide),
    hnil .typeMismatch (by decide), Results.length_pathsWith_compliant hall] at hcount
  simpa using hcount

/--
The listings of a report are a plan that repairs the observed tree. No two of the edits touch
nested paths, and each lies in a directory that is there. In any order they can all be performed.
Then the trees have entries of the same kinds everywhere, and the report has one path for each
declared entry, all of them compliant.
-/
theorem repairs_compareRoots (h : Counterparts e a) :
    let plan := (Report.ofResults (compareRoots e a).value.results).repairs
    plan.Pairwise Edit.Apart ∧
    (∀ x ∈ plan, ∃ above directory, parentPath? x.path = some above ∧
      a.entryAt? a.name above = some directory ∧ directory.kind = .directory) ∧
    ∀ order : List Edit, order.Perm plan → ∃ mended, order.foldlM (Edit.apply e) a = some mended ∧
      let results := (compareRoots e mended).value.results
      (∀ ns, kindAt? (some mended) ns = kindAt? (some e) ns) ∧
        results.size = e.descendantCount ∧ (∀ p s, results.find? p = some s → s = .compliant) ∧
        (Report.ofResults results).isCompliant := by
  intro plan
  have hapart : plan.Pairwise Edit.Apart := pairwise_apart_repairs h
  have hfits : ∀ x ∈ plan, x.Fits e a := by
    intro x hx
    obtain ⟨ns, hp, hr⟩ := (mem_repairs h).mp hx
    exact hr.fits h hp
  refine ⟨hapart, fun x hx => ?_, fun order horder => ?_⟩
  · have hx := hfits x hx
    obtain ⟨directory, hd, hk⟩ := Option.map_eq_some_iff.mp hx.above
    have hnames : ∀ n ∈ x.names.dropLast, IsName n :=
      fun n hn => hx.names n (List.dropLast_subset _ hn)
    refine ⟨joinNames a.name x.names.dropLast, directory, ?_, ?_, hk⟩
    · conv_lhs => rw [hx.path]
      exact parentPath?_joinNames h.actual.isName hx.names hx.ne_nil
    · rw [Tree.entryAt?_joinNames _ h.actual.isName hnames, hd]
  · have hfits' : ∀ x ∈ order, x.Fits e a := fun x hx => hfits x (horder.mem_iff.mp hx)
    have hapart' : order.Pairwise Edit.Apart := hapart.perm horder.symm Edit.Apart.symm
    obtain ⟨mended, hrun, hmerged⟩ := exists_foldlM_apply h.declared h.actual hfits' hapart'
    have hkinds := kindAt?_eq_of_merged h (fun x hx => horder.mem_iff.mpr hx) hmerged
    have hmended : Counterparts e mended := h.of_merged hmerged hkinds
    have hall := hmended.compliant_of_kindAt?_eq hkinds
    exact ⟨mended, hrun, fun ns => (hkinds ns).symm, hmended.size_results hall, hall,
      (isCompliant_ofResults _).mpr hall⟩

theorem repairs_compareRoots_nested :
    let e := Tree.branch "src" [.branch "lib" [.branch "io" [.leaf "mod.rs"]], .leaf "docs"]
    let a := Tree.branch "src" [.branch "docs" [.leaf "old.md"], .branch "lib" [.leaf "tmp"]]
    let order : List Edit :=
      [⟨.insert, "src/lib/io"⟩, ⟨.delete, "src/lib/tmp"⟩, ⟨.replace, "src/docs"⟩]
    Counterparts e a ∧ order.Perm (Report.ofResults (compareRoots e a).value.results).repairs ∧
      ∃ mended, order.foldlM (Edit.apply e) a = some mended ∧
        kindAt? (some mended) ["lib", "io", "mod.rs"] = some .file ∧
        kindAt? (some mended) ["docs", "old.md"] = none ∧
        (compareRoots e mended).value.results.size = 4 := by
  intro e a order
  have h : Counterparts e a := ⟨by decide, by decide, rfl, rfl, rfl⟩
  have horder : order.Perm (Report.ofResults (compareRoots e a).value.results).repairs := by
    decide
  obtain ⟨_, _, hmend⟩ := repairs_compareRoots h
  obtain ⟨mended, hrun, hkinds, hsize, _⟩ := hmend order horder
  exact ⟨h, horder, mended, hrun, hkinds _, hkinds _, hsize⟩

end LayoutCheck
