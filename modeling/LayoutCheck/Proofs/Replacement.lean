import LayoutCheck.Proofs.Share
import LayoutCheck.Proofs.StandIn
import Mathlib.Tactic.NormNum

/-!
Replacing a compliant entry by one of the other kind.

The path becomes a mismatch and nothing below it is looked at any more, whatever the new entry holds
(`Alteration.find?_of_replaced`). So the path and what was declared below it leave both sides of the
share of what is compliant, and the path comes back as declared only (`Results.Mistyped`). The share
falls just when enough of them were compliant (`compareRoots_replace`); it can rise
(`compareRoots_replace_raises_share`).
-/

namespace LayoutCheck

variable {e a c d t u : Tree} {ns : List String} {p q : String}

/-! ## The results -/

theorem fits_replace (hns : ns ≠ []) (hd : a.resolve? ns = some d) (hc : c.name = d.name) :
    Action.replace.Fits (some c) a ns := by
  have hthere : (kindAt? (some a) ns).isSome := by simp [kindAt?, hd]
  refine ⟨hns, kindAt?_dropLast hns hthere, by simp [hthere], by simp, ?_⟩
  rintro _ ⟨⟩
  rw [Tree.getLast?_of_resolve? hd hns, hc]

/-- An entry of that name and kind with nothing in it. -/
def Tree.bare (t : Tree) : Tree :=
  match t.kind with
  | .file => .leaf t.name
  | .directory => .branch t.name []

@[simp] theorem Tree.name_bare (t : Tree) : t.bare.name = t.name := by
  unfold bare
  cases t.kind <;> rfl

@[simp] theorem Tree.kind_bare (t : Tree) : t.bare.kind = t.kind := by
  unfold bare
  cases t.kind <;> rfl

theorem Tree.wellFormed_bare (h : IsName t.name) : t.bare.WellFormed := by
  unfold bare
  cases t.kind with
  | file => exact namedBy_leaf.mpr h
  | directory => exact namedBy_directory.mpr ⟨h, by simp [arrange], by simp [arrange]⟩

/-- What is compliant is declared and there, of one kind. -/
theorem exists_entries_of_compliant (h : statusAt (some e) (some a) ns = some .compliant) :
    ∃ t d, e.resolve? ns = some t ∧ a.resolve? ns = some d ∧ t.kind = d.kind := by
  have hentries := statusAt_resolve? h
  rw [Option.bind_some, Option.bind_some] at hentries
  cases ht : e.resolve? ns with
  | none => simp [ht, statusAt_none_eq_some] at hentries
  | some t =>
    rw [ht, statusAt_nil, Option.some.injEq, verdict_eq_compliant] at hentries
    obtain ⟨d, hd, hk⟩ := Option.map_eq_some_iff.mp hentries.symm
    exact ⟨t, d, rfl, hd, hk.symm⟩

/-- An entry of the other kind is a mismatch, and nothing below it has a status. -/
theorem Alteration.find?_of_replaced (h : Alteration e a (some c) ns u)
    (hparent : statusAt (some e) (some a) ns.dropLast = some .compliant)
    (ht : e.resolve? ns = some t) (hk : t.kind ≠ c.kind)
    (hq : q = joinNames e.name ns ∨ isBelow q (joinNames e.name ns)) :
    (compareRoots e u).value.results.find? q =
      if q = joinNames e.name ns then some .typeMismatch else none := by
  have hverdict : verdict t (some c) = .typeMismatch := by simp [verdict, hk]
  have hstatus : ∀ ks s, statusAt (some t) (some c) ks = some s ↔ ks = [] ∧ s = .typeMismatch := by
    intro ks s
    cases ks with
    | nil => simp [hverdict, eq_comm]
    | cons k ks => simp [statusAt_cons, hverdict]
  apply Option.ext
  intro s
  rw [h.find?_here hparent hq]
  simp only [ht, hstatus]
  constructor
  · rintro ⟨ks, rfl, rfl, rfl⟩
    simp
  · intro hs
    obtain ⟨rfl, rfl⟩ : q = joinNames e.name ns ∧ s = .typeMismatch := by simpa [eq_comm] using hs
    exact ⟨[], by simp⟩

/-! ## The share -/

/-- The second results have a mismatch where the first are compliant, and nothing below it. -/
structure Results.Mistyped (before after : Results) (p : String) : Prop where
  compliant : before.find? p = some .compliant
  typeMismatch : after.find? p = some .typeMismatch
  below : ∀ q, isBelow q p → after.find? q = none
  elsewhere : ∀ q, q ≠ p → ¬ isBelow q p → after.find? q = before.find? q

namespace Results.Mistyped

variable {before after : Results}

theorem length_pathsWhere (h : before.Mistyped after p) (P : Status → Bool) :
    (before.pathsWhere P).length + (P .typeMismatch).toNat =
      (after.pathsWhere P).length + (P .compliant).toNat + before.countBelow P p := by
  rw [before.length_pathsWhere P p, after.length_pathsWhere P p, h.compliant, h.typeMismatch,
    countBelow_eq_zero h.below, countElsewhere_congr h.elsewhere, Option.any_some, Option.any_some]
  omega

/-- The path and the compliant ones below it are not compliant any more. -/
theorem compliant_eq (h : before.Mistyped after p) :
    (Report.ofResults before).counts.compliant =
      (Report.ofResults after).counts.compliant + (1 + before.countBelow (· = .compliant) p) := by
  have hlength := h.length_pathsWhere (· = .compliant)
  rw [← compliant_eq_length, ← compliant_eq_length] at hlength
  change _ + 0 = _ + 1 + _ at hlength
  omega

/-- What was declared below the path does not count any more. -/
theorem expectedTotal_eq (h : before.Mistyped after p) :
    (Report.ofResults before).counts.expectedTotal =
      (Report.ofResults after).counts.expectedTotal + before.countBelow (· ≠ .extra) p := by
  have hlength := h.length_pathsWhere (· ≠ .extra)
  rw [← expectedTotal_eq_length, ← expectedTotal_eq_length] at hlength
  change _ + 1 = _ + 1 + _ at hlength
  omega

theorem expectedTotal_pos (h : before.Mistyped after p) :
    0 < (Report.ofResults after).counts.expectedTotal := by
  rw [expectedTotal_eq_length]
  exact List.length_pos_of_mem (mem_pathsWhere.mpr ⟨_, h.typeMismatch, rfl⟩)

theorem share_lt_iff (h : before.Mistyped after p) :
    (Report.ofResults after).counts.share < (Report.ofResults before).counts.share ↔
      (Report.ofResults after).counts.compliant * before.countBelow (· ≠ .extra) p <
        (1 + before.countBelow (· = .compliant) p) *
          (Report.ofResults after).counts.expectedTotal :=
  Counts.share_lt_iff h.expectedTotal_pos h.compliant_eq h.expectedTotal_eq

/-- The share falls if all that was declared below the path was compliant. -/
theorem share_lt (h : before.Mistyped after p) (hbelow : ∀ q, isBelow q p →
      before.find? q ≠ some .missing ∧ before.find? q ≠ some .typeMismatch) :
    (Report.ofResults after).counts.share < (Report.ofResults before).counts.share := by
  have hall : before.countBelow (· ≠ .extra) p = before.countBelow (· = .compliant) p := by
    refine Results.countBelow_congr fun q s hq hs => ?_
    obtain ⟨hmissing, hmismatch⟩ := hbelow q hq
    cases s <;> simp_all
  have hle : (Report.ofResults after).counts.compliant ≤
      (Report.ofResults after).counts.expectedTotal := by
    rw [Counts.expectedTotal]
    omega
  rw [h.share_lt_iff, hall, Nat.add_mul, Nat.one_mul, Nat.mul_comm]
  have hless := Nat.mul_le_mul_left (before.countBelow (· = .compliant) p) hle
  have hpos := h.expectedTotal_pos
  omega

end Results.Mistyped

/-- A compliant entry can be replaced by one of the other kind, whatever that holds. -/
theorem Counterparts.exists_mistyped (h : Counterparts e a)
    (hs : statusAt (some e) (some a) ns = some .compliant) (hns : ns ≠ [])
    (hd : a.resolve? ns = some d) (hname : c.name = d.name) (hkind : c.kind ≠ d.kind) :
    ∃ u, a.alter? .replace (some c) (joinNames e.name ns) = some u ∧
      (compareRoots e a).value.results.Mistyped (compareRoots e u).value.results
        (joinNames e.name ns) := by
  obtain ⟨t, d', ht, hd', hk⟩ := exists_entries_of_compliant hs
  obtain rfl : d' = d := Option.some.inj (hd'.symm.trans hd)
  have hnames : ∀ n ∈ ns, IsName n := h.isName_of_statusAt hs
  have hother : t.kind ≠ c.kind := hk ▸ hkind.symm
  have hparent : statusAt (some e) (some a) ns.dropLast = some .compliant :=
    (status_parent hns hs).resolve_right fun hm => absurd hm.2 (by decide)
  have hc : IsName c.name := hname ▸ Tree.WellFormed.isName (Tree.All.resolve? h.actual hd)
  have hsame : ∀ x ∈ e.resolve? ns, SameSteps x c c.bare := by
    intro x hx
    obtain rfl : t = x := Option.some.inj (ht.symm.trans hx)
    exact .of_kind_ne c.kind_bare.symm hother
  obtain ⟨u, v, hu, halt, hresults⟩ := h.exists_alter?_of_sameSteps
    (fits_replace hns hd (c.name_bare.trans hname)) hnames (Tree.wellFormed_bare hc)
    c.name_bare.symm hsame
  have hhere : ∀ q, q = joinNames e.name ns ∨ isBelow q (joinNames e.name ns) →
      (compareRoots e u).value.results.find? q =
        if q = joinNames e.name ns then some .typeMismatch else none := fun q hq =>
    hresults ▸ halt.find?_of_replaced hparent ht (c.kind_bare ▸ hother) hq
  refine ⟨u, hu, (h.find?_joinNames hnames hns).trans hs, ?_, fun q hq => ?_, fun q hq hbelow => ?_⟩
  · rw [hhere _ (.inl rfl), if_pos rfl]
  · rw [hhere q (.inr hq), if_neg]
    rintro rfl
    exact Results.not_isBelow_self _ hq
  · rw [hresults, halt.find?_elsewhere (not_or.mpr ⟨hq, hbelow⟩)]

/--
Replacing a compliant entry by one of the other kind, with any contents. Its path becomes a
mismatch, nothing below it has a status any more, and no other path is affected. The path and the
compliant ones below it are not compliant any more, and what was declared below it does not count
any more; so the share of what is compliant falls just when the first weigh more than the share of
what is left would give. They do if all that was declared below the path was compliant.
-/
theorem compareRoots_replace (h : Counterparts e a)
    (hp : (compareRoots e a).value.results.find? p = some .compliant) :
    ∃ d, a.entryAt? a.name p = some d ∧ ∀ c : Tree, c.name = d.name → c.kind ≠ d.kind →
      ∃ retyped, a.alter? .replace (some c) p = some retyped ∧
        let before := (compareRoots e a).value.results
        let after := (compareRoots e retyped).value.results
        let counts := fun r => (Report.ofResults r).counts
        let compliantBelow := before.countBelow (· = .compliant) p
        let declaredBelow := before.countBelow (· ≠ .extra) p
        after.find? p = some .typeMismatch ∧
        (∀ q, isBelow q p → after.find? q = none) ∧
        (∀ q, q ≠ p → ¬ isBelow q p → after.find? q = before.find? q) ∧
        (counts before).compliant = (counts after).compliant + (1 + compliantBelow) ∧
        (counts before).expectedTotal = (counts after).expectedTotal + declaredBelow ∧
        0 < (counts after).expectedTotal ∧
        ((counts after).share < (counts before).share ↔ (counts after).compliant * declaredBelow <
          (1 + compliantBelow) * (counts after).expectedTotal) ∧
        ((∀ q, isBelow q p →
            before.find? q ≠ some .missing ∧ before.find? q ≠ some .typeMismatch) →
          (counts after).share < (counts before).share) := by
  obtain ⟨ns, hne, rfl, hs⟩ := h.find?_results.mp hp
  obtain ⟨_, d, _, hd, _⟩ := exists_entries_of_compliant hs
  have hentry : a.entryAt? a.name (joinNames a.name ns) = some d := by
    rw [Tree.entryAt?_joinNames _ h.actual.isName (h.isName_of_statusAt hs), hd]
  refine ⟨d, h.name_eq ▸ hentry, fun c hname hkind => ?_⟩
  obtain ⟨u, hu, hmistyped⟩ := h.exists_mistyped hs hne hd hname hkind
  exact ⟨u, hu, hmistyped.typeMismatch, hmistyped.below, hmistyped.elsewhere,
    hmistyped.compliant_eq, hmistyped.expectedTotal_eq, hmistyped.expectedTotal_pos,
    hmistyped.share_lt_iff, hmistyped.share_lt⟩

/-- A directory with a missing entry becomes a file, or a file a directory with any contents. -/
theorem compareRoots_replace_contents :
    let e := Tree.branch "src" [.branch "lib" [.leaf "mod.rs", .leaf "io.rs"], .leaf "main.rs"]
    let a := Tree.branch "src" [.branch "lib" [.leaf "mod.rs", .leaf "tmp"], .leaf "main.rs"]
    let before := (compareRoots e a).value.results
    let share := fun r => (Report.ofResults r).counts.share
    let other := Tree.branch "main.rs" [.leaf "a/b", .leaf ""]
    Counterparts e a ∧ before.find? "src/lib" = some .compliant ∧
      before.find? "src/main.rs" = some .compliant ∧
      (∃ retyped, a.alter? .replace (some (.leaf "lib")) "src/lib" = some retyped ∧
        let after := (compareRoots e retyped).value.results
        after.find? "src/lib" = some .typeMismatch ∧ after.find? "src/lib/io.rs" = none ∧
          share after < share before) ∧
      ∃ retyped, a.alter? .replace (some other) "src/main.rs" = some retyped ∧
        let after := (compareRoots e retyped).value.results
        after.find? "src/main.rs" = some .typeMismatch ∧
          after.find? "src/lib/io.rs" = some .missing ∧ share after < share before := by
  intro e a before share other
  have h : Counterparts e a := ⟨by decide, by decide, rfl, rfl, rfl⟩
  have hlib : before.find? "src/lib" = some .compliant := by decide
  have hmain : before.find? "src/main.rs" = some .compliant := by decide
  have hio : before.find? "src/lib/io.rs" = some .missing := by decide
  have hcounts : (Report.ofResults (compareRoots e a).value.results).counts = ⟨3, 1, 1, 0⟩ := by
    decide +kernel
  refine ⟨h, hlib, hmain, ?_, ?_⟩
  · obtain ⟨d, hd, hreplace⟩ := compareRoots_replace h hlib
    obtain rfl : Tree.branch "lib" [.leaf "mod.rs", .leaf "tmp"] = d :=
      Option.some.inj (.trans (by decide +kernel) hd)
    obtain ⟨retyped, hretyped, hhere, hbelow, _, hcompliant, htotal, _, hshare, _⟩ :=
      hreplace (.leaf "lib") rfl (by decide)
    have hcompliantBelow : (compareRoots e a).value.results.countBelow (· = .compliant) "src/lib" =
        1 := by decide +kernel
    have hdeclaredBelow : (compareRoots e a).value.results.countBelow (· ≠ .extra) "src/lib" =
        2 := by decide +kernel
    refine ⟨retyped, hretyped, hhere, hbelow _ (by decide), hshare.mpr ?_⟩
    beta_reduce at hcompliant htotal ⊢
    rw [hcounts, hcompliantBelow] at hcompliant
    rw [hcounts, hdeclaredBelow] at htotal
    rw [hcompliantBelow, hdeclaredBelow]
    simp only [Counts.expectedTotal] at hcompliant htotal ⊢
    omega
  · obtain ⟨d, hd, hreplace⟩ := compareRoots_replace h hmain
    obtain rfl : Tree.leaf "main.rs" = d := Option.some.inj (.trans (by decide +kernel) hd)
    obtain ⟨retyped, hretyped, hhere, _, helsewhere, _, _, hpos, hshare, _⟩ :=
      hreplace other rfl (by decide)
    have hdeclaredBelow : (compareRoots e a).value.results.countBelow (· ≠ .extra) "src/main.rs" =
        0 := by decide +kernel
    refine ⟨retyped, hretyped, hhere, ?_, hshare.mpr ?_⟩
    · exact (helsewhere _ (by decide) (by decide)).trans hio
    · rw [hdeclaredBelow, Nat.mul_zero]
      exact Nat.mul_pos (by omega) hpos

/-- A directory that lacks most of its contents takes them out of the count when it goes. -/
theorem compareRoots_replace_raises_share :
    let e := Tree.branch "src" [.branch "lib" [.leaf "a.rs", .leaf "b.rs", .leaf "c.rs"],
      .leaf "main.rs"]
    let a := Tree.branch "src" [.branch "lib" [], .leaf "main.rs"]
    let retyped := Tree.branch "src" [.leaf "lib", .leaf "main.rs"]
    let before := (compareRoots e a).value.results
    let after := (compareRoots e retyped).value.results
    let share := fun r => (Report.ofResults r).counts.share
    Counterparts e a ∧ before.find? "src/lib" = some .compliant ∧
      a.entryAt? a.name "src/lib" = some (.branch "lib" []) ∧
      a.alter? .replace (some (.leaf "lib")) "src/lib" = some retyped ∧
      share before = 2 / 5 ∧ share after = 1 / 2 ∧ ¬ share after < share before := by
  intro e a retyped before after share
  have hbefore : (Report.ofResults before).counts = ⟨2, 3, 0, 0⟩ := by decide +kernel
  have hafter : (Report.ofResults after).counts = ⟨1, 0, 0, 1⟩ := by decide +kernel
  have hshare : share before = 2 / 5 := by
    norm_num [share, hbefore, Counts.share, Counts.expectedTotal]
  have hshare' : share after = 1 / 2 := by
    norm_num [share, hafter, Counts.share, Counts.expectedTotal]
  refine ⟨⟨by decide, by decide, rfl, rfl, rfl⟩, by decide, by decide +kernel, by decide +kernel,
    hshare, hshare', ?_⟩
  rw [hshare, hshare']
  norm_num

end LayoutCheck
