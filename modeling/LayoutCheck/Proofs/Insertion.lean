import LayoutCheck.Proofs.Share
import LayoutCheck.Proofs.StandIn

/-!
Inserting an entry that is not declared.

What is inside such an entry is never looked at, so a file of the same name may stand in for it
(`Counterparts.exists_inserted`). In a compliant directory it adds its own path as extra and nothing
else (`Alteration.results_of_inserted`); elsewhere the comparison does not come so far.
-/

namespace LayoutCheck

variable {e a c d u : Tree} {ns : List String} {q : String}

theorem fits_insert (hd : a.resolve? ns = some d) (hk : d.kind = .directory)
    (hfree : a.resolve? (ns ++ [c.name]) = none) :
    Action.insert.Fits (some c) a (ns ++ [c.name]) := by
  refine ⟨by simp, ?_, ?_, by simp, by simp⟩
  · rw [List.dropLast_concat]
    simp [kindAt?, hd, hk]
  · simp [kindAt?, hfree]

/-- Where nothing is declared or there, nothing has a status. -/
theorem Alteration.find?_before_eq_none {entry : Option Tree} (h : Alteration e a entry ns u)
    (hparent : statusAt (some e) (some a) ns.dropLast = some .compliant)
    (hundeclared : e.resolve? ns = none) (hfree : a.resolve? ns = none)
    (hq : q = joinNames e.name ns ∨ isBelow q (joinNames e.name ns)) :
    (compareRoots e a).value.results.find? q = none := by
  rw [Option.eq_none_iff_forall_ne_some]
  intro s hs
  obtain ⟨ks, _, hks⟩ := (h.find?_before hparent hq).mp hs
  simp [hundeclared, hfree] at hks

/-- An undeclared entry where there was none adds its path as extra, in a compliant directory. -/
theorem Alteration.results_of_inserted (h : Alteration e a (some c) ns u)
    (hparent : statusAt (some e) (some a) ns.dropLast = some .compliant)
    (hundeclared : e.resolve? ns = none) (hfree : a.resolve? ns = none) :
    (compareRoots e u).value.results =
      (compareRoots e a).value.results.insert (joinNames e.name ns) .extra := by
  apply Results.ext_find?
  intro q
  rw [Results.find?_insert]
  by_cases hq : q = joinNames e.name ns ∨ isBelow q (joinNames e.name ns)
  · rw [h.find?_before_eq_none hparent hundeclared hfree hq, Option.none_or]
    apply Option.ext
    intro s
    rw [h.find?_here hparent hq]
    simp only [hundeclared, statusAt_none_eq_some]
    constructor
    · rintro ⟨ks, rfl, rfl, rfl, _⟩
      simp
    · intro hs
      obtain ⟨rfl, rfl⟩ : q = joinNames e.name ns ∧ s = .extra := by simpa [eq_comm] using hs
      exact ⟨[], by simp⟩
  · rw [h.find?_elsewhere hq, if_neg fun heq => hq (.inl heq), Option.or_none]

/-- After inserting an entry the results are those of inserting a file of its name. -/
theorem Counterparts.exists_inserted (h : Counterparts e a) (hd : a.resolve? ns = some d)
    (hk : d.kind = .directory) (hnames : ∀ n ∈ ns ++ [c.name], IsName n)
    (hfree : a.resolve? (ns ++ [c.name]) = none)
    (hundeclared : e.resolve? (ns ++ [c.name]) = none) :
    ∃ u v, a.alter? .insert (some c) (joinNames e.name (ns ++ [c.name])) = some u ∧
      Alteration e a (some (.leaf c.name)) (ns ++ [c.name]) v ∧
      (compareRoots e u).value.results = (compareRoots e v).value.results :=
  h.exists_alter?_of_sameSteps (fits_insert (c := .leaf c.name) hd hk hfree) hnames
    (Tree.namedBy_leaf.mpr (hnames c.name (by simp))) rfl (by simp [hundeclared])

/-- The root and the compliant paths are the names that lead to agreement. -/
theorem Counterparts.compliant_iff (h : Counterparts e a) (hns : ∀ n ∈ ns, IsName n) :
    (joinNames e.name ns = e.name ∨
        (compareRoots e a).value.results.find? (joinNames e.name ns) = some .compliant) ↔
      statusAt (some e) (some a) ns = some .compliant := by
  by_cases hne : ns = []
  · subst hne
    simp [h.kind_eq, verdict]
  · have hroot : joinNames e.name ns ≠ e.name := fun heq =>
      hne ((joinNames_inj h.declared.isName hns (List.forall_mem_nil IsName)).mp heq)
    rw [or_iff_right hroot, h.find?_joinNames hns hne]

/--
Inserting an entry into a directory that has none of its name, where none is declared. If the
directory is the root or compliant, the path of the entry is added as extra and nothing else; if
not, nothing changes. Either way no other count moves and the percentage stays, whatever is inside.
-/
theorem compareRoots_insert (h : Counterparts e a) (hd : a.entryAt? a.name q = some d)
    (hk : d.kind = .directory) (hname : IsName c.name) (hfree : d.child? c.name = none)
    (hundeclared : e.entryAt? e.name (joinPath q c.name) = none) :
    ∃ grown, a.alter? .insert (some c) (joinPath q c.name) = some grown ∧
      let before := (compareRoots e a).value.results
      let after := (compareRoots e grown).value.results
      let counts := fun r => (Report.ofResults r).counts
      (q = a.name ∨ before.find? q = some .compliant →
        before.find? (joinPath q c.name) = none ∧
          after = before.insert (joinPath q c.name) .extra) ∧
      (¬ (q = a.name ∨ before.find? q = some .compliant) → after = before) ∧
      (∀ s, s ≠ .extra → (counts after).get s = (counts before).get s) ∧
      (counts after).percentage = (counts before).percentage := by
  obtain ⟨ns, rfl, hns⟩ := (Tree.entryAt?_eq_some_iff h.actual).mp hd
  have hnames : ∀ n ∈ ns, IsName n := Tree.NamedBy.valid_of_resolve? h.actual hns
  have hnames' : ∀ n ∈ ns ++ [c.name], IsName n := by
    simpa [or_imp, forall_and] using ⟨hnames, hname⟩
  have hpath : joinPath (joinNames a.name ns) c.name = joinNames e.name (ns ++ [c.name]) := by
    rw [h.name_eq, joinNames_append]
    rfl
  rw [hpath] at hundeclared ⊢
  rw [Tree.entryAt?_joinNames _ h.declared.isName hnames'] at hundeclared
  have hfree' : a.resolve? (ns ++ [c.name]) = none := by
    simp [Tree.resolve?_append, hns, Tree.resolve?_cons, hfree]
  obtain ⟨grown, stand, hgrown, halt, hresults⟩ :=
    h.exists_inserted hns hk hnames' hfree' hundeclared
  have hcompliant := h.compliant_iff hnames
  rw [← h.name_eq]
  refine ⟨grown, hgrown, ?_⟩
  intro before after counts
  have hadded : joinNames e.name ns = e.name ∨
      before.find? (joinNames e.name ns) = some .compliant →
      before.find? (joinNames e.name (ns ++ [c.name])) = none ∧
        after = before.insert (joinNames e.name (ns ++ [c.name])) .extra := by
    intro hq
    have hparent : statusAt (some e) (some a) (ns ++ [c.name]).dropLast = some .compliant := by
      rw [List.dropLast_concat]
      exact hcompliant.mp hq
    exact ⟨halt.find?_before_eq_none hparent hundeclared hfree' (.inl rfl),
      hresults.trans (halt.results_of_inserted hparent hundeclared hfree')⟩
  have hkept : ¬ (joinNames e.name ns = e.name ∨
      before.find? (joinNames e.name ns) = some .compliant) → after = before := by
    intro hq
    refine hresults.trans (halt.results_of_covered ?_)
    rw [List.dropLast_concat]
    exact fun hparent => hq (hcompliant.mpr hparent)
  have hcounts : ∀ s, s ≠ .extra → (counts after).get s = (counts before).get s := by
    intro s hs
    simp only [counts, Report.counts_get, Report.pathsWith_ofResults]
    by_cases hq : joinNames e.name ns = e.name ∨
        before.find? (joinNames e.name ns) = some .compliant
    · rw [(hadded hq).2, Results.pathsWith_insert_of_ne hs]
    · rw [hkept hq]
  exact ⟨hadded, hkept, hcounts, Counts.percentage_congr hcounts⟩

/-- What is inserted may have contents of any kind, in a compliant directory or a mismatched one. -/
theorem compareRoots_insert_deep :
    let e := Tree.branch "src" [.branch "lib" [.leaf "mod.rs"], .leaf "docs"]
    let a := Tree.branch "src" [.branch "lib" [.leaf "mod.rs"], .branch "docs" []]
    let c := Tree.branch "old" [.branch "lib" [.leaf "mod.rs", .leaf "a/b"], .leaf ""]
    let before := (compareRoots e a).value.results
    Counterparts e a ∧
      (∃ grown, a.alter? .insert (some c) "src/lib/old" = some grown ∧
        (compareRoots e grown).value.results = before.insert "src/lib/old" .extra) ∧
      ∃ grown, a.alter? .insert (some c) "src/docs/old" = some grown ∧
        (compareRoots e grown).value.results = before := by
  intro e a c before
  have h : Counterparts e a := ⟨by decide, by decide, rfl, rfl, rfl⟩
  have hlib : a.entryAt? a.name "src/lib" = some (.branch "lib" [.leaf "mod.rs"]) := by
    decide +kernel
  have hdocs : a.entryAt? a.name "src/docs" = some (.branch "docs" []) := by decide +kernel
  have hpath : joinPath "src/lib" c.name = "src/lib/old" := by decide
  have hpath' : joinPath "src/docs" c.name = "src/docs/old" := by decide
  obtain ⟨grown, hgrown, hadded, _⟩ :=
    compareRoots_insert (c := c) h hlib rfl (by decide) rfl (by decide +kernel)
  obtain ⟨grown', hgrown', _, hkept, _⟩ :=
    compareRoots_insert (c := c) h hdocs rfl (by decide) rfl (by decide +kernel)
  rw [hpath] at hgrown hadded
  rw [hpath'] at hgrown'
  refine ⟨h, ⟨grown, hgrown, (hadded (.inr (by decide))).2⟩, grown', hgrown', hkept ?_⟩
  decide

end LayoutCheck
