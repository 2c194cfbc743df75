import LayoutCheck.Proofs.Prune
import LayoutCheck.Proofs.Repair
import LayoutCheck.Proofs.Selection

/-!
The subtrees that missing paths stand for.

What is declared below a missing path is missing as well (`statusAt_append_of_missing`), so the
missing paths below it are as many as the entries declared below it (`missingBelow_joinNames`): one
side counts texts that go on with a slash, the other entries of a tree. Whether a missing path is
topmost is seen in the observed tree (`isTopmost_iff_parentPresent`).

Of the missing paths alone: each lies below a topmost one or is topmost (`exists_isTopmost`), and
the list that the choice begins with starts with the largest root (`exists_first_item`).
-/

namespace LayoutCheck

/-! ## The largest root is chosen first -/

namespace Remediation

variable {p q above : String} {missing : List String} {limit : Nat}

theorem isBelow_trans {top : String} (hp : isBelow p above) (ha : isBelow above top) :
    isBelow p top := by
  obtain ⟨rest, hp⟩ := (isBelow_iff p above).mp hp
  obtain ⟨middle, ha⟩ := (isBelow_iff above top).mp ha
  exact (isBelow_iff p top).mpr ⟨middle ++ '/' :: rest, by simp [hp, ha]⟩

theorem isBelow_of_parentPath? (h : parentPath? p = some above) : isBelow p above := by
  obtain ⟨name, _, rfl⟩ := parentPath?_eq_some_iff.mp h
  exact (isBelow_iff _ above).mpr ⟨name.toList, by simp⟩

/-- Below the path above there are at least as many. -/
theorem missingBelow_le_of_isBelow (missing : List String) (h : isBelow p above) :
    missingBelow missing p ≤ missingBelow missing above :=
  List.countP_mono_left fun _ _ hq => isBelow_trans hq h

/-- Each missing path has a topmost one above it, or is topmost, and that has no fewer below. -/
theorem exists_isTopmost (hp : p ∈ missing) :
    ∃ top ∈ missing, isTopmost missing top ∧ missingBelow missing p ≤ missingBelow missing top := by
  -- the path above is a shorter text
  induction hn : p.length using Nat.strong_induction_on generalizing p with
  | _ n ih =>
    by_cases htop : isTopmost missing p
    · exact ⟨p, hp, htop, Nat.le_refl _⟩
    · obtain ⟨above, habove, hmem⟩ : ∃ above, parentPath? p = some above ∧ above ∈ missing := by
        rw [isTopmost] at htop
        split at htop
        · simp at htop
        · exact ⟨_, ‹_›, by simpa using htop⟩
      have hbelow : isBelow p above := isBelow_of_parentPath? habove
      have hshorter : above.length < p.length := by
        obtain ⟨rest, hrest⟩ := (isBelow_iff p above).mp hbelow
        have hlength := congrArg List.length hrest
        simp only [String.length_toList, List.length_append, List.length_cons] at hlength
        omega
      obtain ⟨top, htopmem, htop, hle⟩ := ih above.length (hn ▸ hshorter) hmem rfl
      exact ⟨top, htopmem, htop, (missingBelow_le_of_isBelow missing hbelow).trans hle⟩

theorem head?_items (hlimit : 1 ≤ limit) {first : String}
    (h : (subtreeRoots missing).head? = some first) :
    (ofDistinct missing limit).items.head? = some first := by
  have hroom : min maxSubtreeRoots limit ≠ 0 := by
    rw [maxSubtreeRoots]
    omega
  simp [ofDistinct, List.head?_append, List.head?_take, hroom, h]

/-- If there are missing paths below others, the choice begins with a root that has the most. -/
theorem exists_first_item (hlimit : 1 ≤ limit) (hp : p ∈ missing)
    (hbelow : 0 < missingBelow missing p) :
    ∃ first ∈ subtreeRoots missing, (ofDistinct missing limit).items.head? = some first ∧
      ∀ q ∈ missing, missingBelow missing q ≤ missingBelow missing first := by
  have hroot : ∀ q ∈ missing, 0 < missingBelow missing q →
      ∃ top ∈ subtreeRoots missing, missingBelow missing q ≤ missingBelow missing top := by
    intro q hq hpos
    obtain ⟨top, hmem, htop, hle⟩ := exists_isTopmost hq
    exact ⟨top, mem_subtreeRoots.mpr ⟨hmem, htop, hpos.trans_le hle⟩, hle⟩
  obtain ⟨root, hmem, _⟩ := hroot p hp hbelow
  obtain ⟨first, rest, hroots⟩ := List.exists_cons_of_ne_nil (List.ne_nil_of_mem hmem)
  have hsorted := pairwise_subtreeRoots missing
  rw [hroots, List.pairwise_cons] at hsorted
  have hmax : ∀ top ∈ subtreeRoots missing,
      missingBelow missing top ≤ missingBelow missing first := by
    intro top htop
    rw [hroots] at htop
    rcases List.mem_cons.mp htop with rfl | htop
    · exact Nat.le_refl _
    · exact (rootOrder_iff.mp (hsorted.1 top htop)).elim Nat.le_of_lt fun h => h.1.le
  refine ⟨first, by simp [hroots], head?_items hlimit (by simp [hroots]), fun q hq => ?_⟩
  rcases Nat.eq_zero_or_pos (missingBelow missing q) with hzero | hpos
  · omega
  · obtain ⟨top, htop, hle⟩ := hroot q hq hpos
    exact hle.trans (hmax top htop)

/-- A list that is ascending already is its distinct paths. -/
theorem distinct_of_ascending (h : missing.Pairwise (· < ·)) : distinct missing = missing :=
  (ascending_distinct missing).eq_of_mem_iff h fun _ => mem_distinct

end Remediation

/-! ## What is below a missing entry -/

variable {e a t : Tree} {ns ks : List String} {p : String}

/-- Below a missing entry everything that is declared is missing, and nothing else has a status. -/
theorem statusAt_append_of_missing {actual : Option Tree} (ht : e.resolve? ns = some t)
    (h : statusAt (some e) actual ns = some .missing) :
    statusAt (some e) actual (ns ++ ks) = (t.resolve? ks).map fun _ => .missing := by
  have hactual : actual.bind (·.resolve? ns) = none := by
    simpa using (isSome_resolve?_of_statusAt h).2
  rw [statusAt_append (by simp [h]), Option.bind_some, ht, hactual, statusAt_missing]

theorem statusAt_below_missing {actual : Option Tree} (ht : e.resolve? ns = some t)
    (h : statusAt (some e) actual ns = some .missing) (hks : (t.resolve? ks).isSome) :
    statusAt (some e) actual (ns ++ ks) = some .missing := by
  obtain ⟨u, hu⟩ := Option.isSome_iff_exists.mp hks
  rw [statusAt_append_of_missing ht h, hu, Option.map_some]

/-- Of a tree that is not there, each entry below the root is found. -/
theorem length_findingsBelow_none (h : t.Distinct) :
    (findingsBelow none t).length = t.descendantCount := by
  have hshare : ∀ f ∈ findings none t, declaredShare t f = 1 := by
    intro f hf
    have hmissing := (statusAt_none_actual.mp ((mem_findings h).mp hf)).1
    simp [declaredShare, hmissing, Status.declaredShare]
  have hsum := sum_declaredShare h none
  rw [List.map_congr_left hshare, List.map_const', List.sum_replicate_nat, findings,
    List.length_append, List.length_singleton, Nat.mul_one] at hsum
  omega

theorem mem_findingsBelow_none (h : t.Distinct) {f : Finding} :
    f ∈ findingsBelow none t ↔
      f.names ≠ [] ∧ f.status = .missing ∧ (t.resolve? f.names).isSome := by
  rw [← statusAt_none_actual, ← mem_findings h]
  constructor
  · intro hf
    exact ⟨names_ne_nil_of_mem_findingsBelow hf, by simp [findings, hf]⟩
  · rintro ⟨hne, hf⟩
    obtain ⟨n, ns, hns⟩ := List.exists_cons_of_ne_nil hne
    rw [hns, mem_findings_cons, ← hns] at hf
    exact hf

/-- What is found below a tree that is not there is found at different paths. -/
theorem nodup_paths_findingsBelow_none {root : String} (hr : IsName root) (h : t.Distinct)
    (hnames : ∀ ks, (t.resolve? ks).isSome → ∀ n ∈ ns ++ ks, IsName n) :
    ((findingsBelow none t).map fun f => joinNames root (ns ++ f.names)).Nodup := by
  have hdifferent : ((findingsBelow none t).map Finding.names).Nodup := by
    have hnone : ∀ a ∈ (none : Option Tree), a.Distinct := by simp
    have hall := nodup_findings h hnone
    rw [findings, List.map_append] at hall
    exact (List.nodup_append.mp hall).1
  have hpaths : ((findingsBelow none t).map fun f => joinNames root (ns ++ f.names)) =
      ((findingsBelow none t).map Finding.names).map fun ks => joinNames root (ns ++ ks) := by
    rw [List.map_map]
    rfl
  have hthere : ∀ ks ∈ (findingsBelow none t).map Finding.names, ∀ n ∈ ns ++ ks, IsName n := by
    intro ks hks
    obtain ⟨f, hf, rfl⟩ := List.mem_map.mp hks
    exact hnames _ ((mem_findingsBelow_none h).mp hf).2.2
  rw [hpaths]
  refine hdifferent.map_on fun ks hks ms hms heq => ?_
  exact List.append_cancel_left ((joinNames_inj hr (hthere ks hks) (hthere ms hms)).mp heq)

theorem Tree.descendantCount_pos_iff :
    0 < t.descendantCount ↔ t.kind = .directory ∧ t.children ≠ [] := by
  rw [Tree.descendantCount_eq_sum]
  cases t with
  | file => simp
  | directory n d cs => cases cs <;> simp

namespace Alignment

variable {l : Alignment}

theorem mem_missing (h : l.WellFormed) :
    p ∈ l.results.pathsWith .missing ↔ ∃ ns, joinNames l.declared.name ns = p ∧
      statusAt (some l.declared) (some l.actual) ns = some .missing := by
  constructor
  · intro hp
    obtain ⟨ns, hns, rfl⟩ := exists_joinNames_of_find?_results h (Results.mem_pathsWith.mp hp)
    exact ⟨ns, rfl, (joinNames_mem_missing h hns).mp hp⟩
  · rintro ⟨ns, rfl, hs⟩
    exact (joinNames_mem_missing h (isName_of_statusAt h hs)).mpr hs

/-- The missing paths below one are those of the entries declared below it. -/
theorem mem_missing_below (h : l.WellFormed) (ht : l.declared.resolve? ns = some t)
    (hs : statusAt (some l.declared) (some l.actual) ns = some .missing) :
    p ∈ l.results.pathsWith .missing ∧ isBelow p (joinNames l.declared.name ns) ↔
      ∃ f ∈ findingsBelow none t, joinNames l.declared.name (ns ++ f.names) = p := by
  have hdistinct : t.Distinct := Tree.WellFormed.distinct (Tree.All.resolve? h.declared ht)
  have hnames : ∀ n ∈ ns, IsName n := isName_of_statusAt h hs
  rw [mem_missing h]
  constructor
  · rintro ⟨⟨ms, rfl, hms⟩, hbelow⟩
    obtain ⟨k, ks, rfl⟩ :=
      (isBelow_joinNames h.declared.isName (isName_of_statusAt h hms) hnames).mp hbelow
    rw [statusAt_append_of_missing ht hs, Option.map_eq_some_iff] at hms
    obtain ⟨u, hu, _⟩ := hms
    exact ⟨⟨k :: ks, .missing⟩, (mem_findingsBelow_none hdistinct).mpr (by simp [hu]), rfl⟩
  · rintro ⟨⟨ks, s⟩, hf, rfl⟩
    obtain ⟨hne, _, hks⟩ := (mem_findingsBelow_none hdistinct).mp hf
    obtain ⟨k, ks, rfl⟩ := List.exists_cons_of_ne_nil hne
    have hms := statusAt_below_missing ht hs hks
    exact ⟨⟨_, rfl, hms⟩, (isBelow_joinNames h.declared.isName (isName_of_statusAt h hms)
      hnames).mpr ⟨k, ks, rfl⟩⟩

/-- Below a missing path as many others are missing as entries are declared. -/
theorem missingBelow_joinNames (h : l.WellFormed) (ht : l.declared.resolve? ns = some t)
    (hs : statusAt (some l.declared) (some l.actual) ns = some .missing) :
    Remediation.missingBelow (l.results.pathsWith .missing) (joinNames l.declared.name ns) =
      t.descendantCount := by
  have hdistinct : t.Distinct := Tree.WellFormed.distinct (Tree.All.resolve? h.declared ht)
  have hnodup := nodup_paths_findingsBelow_none h.declared.isName hdistinct
    fun ks hks => isName_of_statusAt h (statusAt_below_missing ht hs hks)
  have hperm : ((l.results.pathsWith .missing).filter
        (isBelow · (joinNames l.declared.name ns))).Perm
      ((findingsBelow none t).map fun f => joinNames l.declared.name (ns ++ f.names)) := by
    rw [List.perm_ext_iff_of_nodup ((l.results.nodup_pathsWith .missing).filter _) hnodup]
    intro p
    rw [List.mem_filter, List.mem_map, mem_missing_below h ht hs]
  rw [Remediation.missingBelow, List.countP_eq_length_filter, hperm.length_eq, List.length_map,
    length_findingsBelow_none hdistinct]

def ParentPresent (l : Alignment) (p : String) : Prop :=
  ∃ above d, parentPath? p = some above ∧ l.actual.entryAt? l.declared.name above = some d ∧
    d.kind = .directory

/-- A missing path is topmost when the directory that should hold it is there. -/
theorem isTopmost_iff_parentPresent (h : l.WellFormed)
    (hs : statusAt (some l.declared) (some l.actual) ns = some .missing) :
    Remediation.isTopmost (l.results.pathsWith .missing) (joinNames l.declared.name ns) ↔
      l.ParentPresent (joinNames l.declared.name ns) := by
  have hne : ns ≠ [] := by
    rintro rfl
    simp [verdict_eq_missing] at hs
  have hns := isName_of_statusAt h hs
  have hparent : ∀ n ∈ ns.dropLast, IsName n := fun n hn => hns n (List.dropLast_subset ns hn)
  rw [isTopmost_joinNames h hns hne, ParentPresent, parentPath?_joinNames h.declared.isName hns hne]
  constructor
  · intro htop
    have hrepair := needsRepair_missing_iff.mpr ⟨hne, hs, htop⟩
    obtain ⟨d, hd, hk⟩ := Option.map_eq_some_iff.mp hrepair.parent_directory
    refine ⟨_, d, rfl, ?_, hk⟩
    rw [Tree.entryAt?_joinNames _ h.declared.isName hparent, hd]
  · rintro ⟨above, d, habove, hd, _⟩ hmissing
    obtain rfl := Option.some.inj habove
    rw [Tree.entryAt?_joinNames _ h.declared.isName hparent] at hd
    exact (isSome_resolve?_of_statusAt hmissing).2.mp (by simp [hd]) rfl

/-- A missing path belongs to a declared entry, which says how many are missing below it. -/
theorem exists_entryAt?_of_missing (h : l.WellFormed) (hp : p ∈ l.results.pathsWith .missing) :
    ∃ entry, l.declared.entryAt? l.declared.name p = some entry ∧
      Remediation.missingBelow (l.results.pathsWith .missing) p = entry.descendantCount ∧
      (Remediation.isTopmost (l.results.pathsWith .missing) p ↔ l.ParentPresent p) := by
  obtain ⟨ns, rfl, hs⟩ := (mem_missing h).mp hp
  have hthere : (l.declared.resolve? ns).isSome :=
    (isSome_resolve?_of_statusAt hs).1.mpr (by decide)
  obtain ⟨entry, hdeclared⟩ := Option.isSome_iff_exists.mp hthere
  refine ⟨entry, ?_, missingBelow_joinNames h hdeclared hs, isTopmost_iff_parentPresent h hs⟩
  rw [Tree.entryAt?_joinNames _ h.declared.isName (isName_of_statusAt h hs), hdeclared]

end Alignment

/--
The missing paths as texts agree with the declared tree. Below a missing path there are as many
others as entries are declared below it. It is topmost when the directory that should hold it is
there, and a root for the choice when moreover it is declared as a directory with contents. So if
any such directory is missing, the choice begins with a topmost one that declares as much as any.
-/
theorem remediation_compareRoots (he : e.WellFormed) (ha : a.WellFormed) :
    let l := alignRoots e a
    let report := Report.ofResults (compareRoots e a).value.results
    let missing := Remediation.distinct report.missing
    let declaredAt := l.declared.entryAt? l.declared.name
    (∀ p ∈ report.missing, ∃ entry, declaredAt p = some entry ∧
      Remediation.missingBelow missing p = entry.descendantCount ∧
      (Remediation.isTopmost missing p ↔ l.ParentPresent p) ∧
      (p ∈ Remediation.subtreeRoots missing ↔
        l.ParentPresent p ∧ entry.kind = .directory ∧ entry.children ≠ [])) ∧
    ∀ limit, 1 ≤ limit →
      (∃ p ∈ report.missing, ∃ entry, declaredAt p = some entry ∧
        entry.kind = .directory ∧ entry.children ≠ []) →
      ∃ first ∈ report.missing, ∃ entry, declaredAt first = some entry ∧
        (report.remediation limit).items.head? = some first ∧
        l.ParentPresent first ∧ entry.kind = .directory ∧
        ∀ p ∈ report.missing, ∀ other, declaredAt p = some other →
          other.descendantCount ≤ entry.descendantCount := by
  intro l report missing declaredAt
  have hl : l.WellFormed := wellFormed_alignRoots he ha
  have hmissing : missing = report.missing :=
    Remediation.distinct_of_ascending (l.results.ascending_pathsWith .missing)
  have hentry : ∀ p ∈ report.missing, ∃ entry, declaredAt p = some entry ∧
      Remediation.missingBelow missing p = entry.descendantCount ∧
      (Remediation.isTopmost missing p ↔ l.ParentPresent p) := by
    rw [hmissing]
    exact fun p hp => Alignment.exists_entryAt?_of_missing hl hp
  constructor
  · intro p hp
    obtain ⟨entry, hdeclared, hcount, htop⟩ := hentry p hp
    refine ⟨entry, hdeclared, hcount, htop, ?_⟩
    rw [Remediation.mem_subtreeRoots, htop, hcount, Tree.descendantCount_pos_iff]
    exact and_iff_right (hmissing ▸ hp)
  · rintro limit hlimit ⟨p, hp, entry, hdeclared, hcontents⟩
    have hpos : 0 < Remediation.missingBelow missing p := by
      obtain ⟨entry', hdeclared', hcount, _⟩ := hentry p hp
      obtain rfl : entry' = entry := Option.some.inj (hdeclared'.symm.trans hdeclared)
      rw [hcount]
      exact Tree.descendantCount_pos_iff.mpr hcontents
    obtain ⟨first, hroot, hhead, hmax⟩ :=
      Remediation.exists_first_item hlimit (hmissing ▸ hp) hpos
    obtain ⟨hmem, htopmost, hbelow⟩ := Remediation.mem_subtreeRoots.mp hroot
    rw [hmissing] at hmem
    obtain ⟨entry, hdeclared, hcount, htop⟩ := hentry first hmem
    refine ⟨first, hmem, entry, hdeclared, hhead, htop.mp htopmost, ?_, fun q hq other hother => ?_⟩
    · exact (Tree.descendantCount_pos_iff.mp (hcount ▸ hbelow)).1
    · obtain ⟨other', hother', hcount', _⟩ := hentry q hq
      obtain rfl : other' = other := Option.some.inj (hother'.symm.trans hother)
      rw [← hcount, ← hcount']
      exact hmax q (hmissing ▸ hq)

/-- Of siblings whose names begin alike, the one that declares most is chosen first. -/
theorem remediation_compareRoots_siblings :
    let e := Tree.branch "src" [.branch "lib" [.leaf "mod.rs"], .leaf "lib.rs",
      .branch "core" [.branch "lib" [.branch "io" [.leaf "mod.rs"]], .branch "lib2" []]]
    let a := Tree.branch "src" [.branch "core" [.leaf "lib3"]]
    let report := Report.ofResults (compareRoots e a).value.results
    e.WellFormed ∧ a.WellFormed ∧ report.missing = ["src/core/lib", "src/core/lib/io",
        "src/core/lib/io/mod.rs", "src/core/lib2", "src/lib", "src/lib.rs", "src/lib/mod.rs"] ∧
      Remediation.missingBelow (Remediation.distinct report.missing) "src/core/lib" = 2 ∧
      "src/core/lib2" ∉ Remediation.subtreeRoots (Remediation.distinct report.missing) ∧
      (report.remediation 1).items.head? = some "src/core/lib" ∧
      ∀ p ∈ report.missing, ∀ other, e.entryAt? "src" p = some other →
        other.descendantCount ≤ 2 := by
  intro e a report
  have he : e.WellFormed := by decide
  have ha : a.WellFormed := by decide
  have hmissing : report.missing = ["src/core/lib", "src/core/lib/io", "src/core/lib/io/mod.rs",
      "src/core/lib2", "src/lib", "src/lib.rs", "src/lib/mod.rs"] := by decide +kernel
  have hsubtrees : Remediation.subtreeRoots (Remediation.distinct report.missing) =
      ["src/core/lib", "src/lib"] := by
    rw [hmissing]
    exact List.mergeSort_of_pairwise (l := ["src/core/lib", "src/lib"]) (by decide +kernel)
  have hhead : (report.remediation 1).items.head? = some "src/core/lib" :=
    Remediation.head?_items (by decide) (by rw [hsubtrees]; rfl)
  have hlib : e.entryAt? "src" "src/core/lib" =
      some (.branch "lib" [.branch "io" [.leaf "mod.rs"]]) := by decide +kernel
  have hlib2 : e.entryAt? "src" "src/core/lib2" = some (.branch "lib2" []) := by decide +kernel
  obtain ⟨hroots, hfirst⟩ := remediation_compareRoots he ha
  obtain ⟨entry, hentry, hcount, _⟩ := hroots "src/core/lib" (by rw [hmissing]; decide)
  obtain rfl := Option.some.inj (hentry.symm.trans hlib)
  obtain ⟨empty, hempty, _, _, hroot⟩ := hroots "src/core/lib2" (by rw [hmissing]; decide)
  obtain rfl := Option.some.inj (hempty.symm.trans hlib2)
  obtain ⟨first, _, largest, hlargest, hitem, _, _, hmax⟩ := hfirst 1 (by decide)
    ⟨"src/core/lib", by rw [hmissing]; decide, _, hentry, rfl, by decide⟩
  obtain rfl := Option.some.inj (hitem.symm.trans hhead)
  obtain rfl := Option.some.inj (hlargest.symm.trans hlib)
  exact ⟨he, ha, hmissing, hcount, fun h => (hroot.mp h).2.2 rfl, hhead, hmax⟩

end LayoutCheck
