import LayoutCheck.Proofs.Conservation
import LayoutCheck.Proofs.Counterparts
import LayoutCheck.Proofs.Edit

/-!
What becomes of the results when the observed directory is altered at one path.

A status depends only on the kinds that the names pass on their way (`statusAt_congr`). So all paths
but the altered one and those below it keep theirs (`Alteration.find?_elsewhere`). If the directory
that holds the altered entry is compliant, the entry that is put there decides what is found from
the path on (`Alteration.find?_here`). If it is not, the comparison does not come so far, before or
after (`Alteration.results_of_covered`).
-/

namespace LayoutCheck

variable {declared actual entry : Option Tree} {e a u : Tree} {ns ms ks : List String} {s : Status}
  {p q : String} {action : Action}

/-! ## Statuses -/

theorem verdict_congr {b : Option Tree} (h : actual.map Tree.kind = b.map Tree.kind) :
    verdict e actual = verdict e b := by
  cases actual with
  | none =>
    obtain rfl : b = none := by simpa using h.symm
    rfl
  | some a =>
    obtain ⟨b, rfl, hk⟩ := Option.map_eq_some_iff.mp h.symm
    simp [verdict, hk]

/-- A status depends only on the kinds that the names pass on their way. -/
theorem statusAt_congr {b : Option Tree}
    (h : ∀ ks, ks <+: ms → kindAt? actual ks = kindAt? b ks) :
    statusAt declared actual ms = statusAt declared b ms := by
  induction ms generalizing declared actual b with
  | nil =>
    have hroot := h [] List.prefix_rfl
    rw [kindAt?_nil, kindAt?_nil] at hroot
    cases declared with
    | none => cases actual <;> cases b <;> simp_all [statusAt]
    | some e => rw [statusAt_nil, statusAt_nil, verdict_congr hroot]
  | cons m ms ih =>
    have hroot := h [] List.nil_prefix
    rw [kindAt?_nil, kindAt?_nil] at hroot
    cases declared with
    | none => cases actual <;> cases b <;> rfl
    | some e =>
      have hrest : statusAt (e.child? m) (observed? actual m) ms =
          statusAt (e.child? m) (observed? b m) ms := by
        refine ih fun ks hks => ?_
        rw [← kindAt?_cons, ← kindAt?_cons]
        exact h (m :: ks) (List.cons_prefix_cons.mpr ⟨rfl, hks⟩)
      rw [statusAt_cons, statusAt_cons, verdict_congr hroot, hrest]

/-- In a compliant directory the two entries of a name decide. -/
theorem statusAt_append_of_parent (hns : ns ≠ [])
    (h : statusAt (some e) actual ns.dropLast = some .compliant) :
    statusAt (some e) actual (ns ++ ks) =
      statusAt (e.resolve? ns) (actual.bind (·.resolve? ns)) ks := by
  obtain ⟨above, n, rfl⟩ : ∃ above n, ns = above ++ [n] :=
    ⟨_, _, (List.dropLast_concat_getLast hns).symm⟩
  rw [List.dropLast_concat] at h
  have hentries := statusAt_resolve? h
  rw [List.append_assoc, statusAt_append (by simp [h])]
  rw [Option.bind_some] at hentries ⊢
  cases hd : e.resolve? above with
  | none => simp [hd, statusAt_none_eq_some] at hentries
  | some d =>
    rw [hd, statusAt_nil, Option.some.injEq] at hentries
    rw [List.singleton_append, statusAt_cons, hentries, if_neg (by decide), Tree.resolve?_append,
      hd]
    cases actual with
    | none => simp [Tree.resolve?_cons]
    | some a => cases ha : a.resolve? above <;> simp [Tree.resolve?_cons, Tree.resolve?_append, ha]

/-- Nothing has a status in a directory that is there and not compliant. -/
theorem statusAt_eq_none_of_covered (hns : ns ≠ [])
    (habove : kindAt? (some a) ns.dropLast = some .directory)
    (hparent : statusAt (some e) (some a) ns.dropLast ≠ some .compliant) :
    statusAt (some e) (some a) (ns ++ ks) = none := by
  rw [Option.eq_none_iff_forall_ne_some]
  intro s hs
  rw [← List.dropLast_concat_getLast hns, List.append_assoc] at hs
  rcases status_above (by simp) hs with hcompliant | ⟨hmissing, _⟩
  · exact hparent hcompliant
  · exact (isSome_kindAt?_of_statusAt hmissing).2.mp (by simp [habove]) rfl

/-- An entry that is there has a status when the directory that holds it is compliant. -/
theorem isSome_statusAt_iff (hns : ns ≠ []) (hthere : (kindAt? (some a) ns).isSome) :
    (statusAt (some e) (some a) ns).isSome ↔
      statusAt (some e) (some a) ns.dropLast = some .compliant := by
  constructor
  · intro h
    obtain ⟨s, hs⟩ := Option.isSome_iff_exists.mp h
    refine (status_parent hns hs).resolve_right ?_
    rintro ⟨_, rfl⟩
    exact (isSome_kindAt?_of_statusAt hs).2.mp hthere rfl
  · intro h
    obtain ⟨o, ho⟩ : ∃ o, a.resolve? ns = some o := by
      simpa [kindAt?, Option.isSome_iff_exists] using hthere
    have hhere : statusAt (some e) (some a) (ns ++ []) = _ := statusAt_append_of_parent hns h
    rw [List.append_nil] at hhere
    rw [hhere, Option.bind_some, ho]
    cases e.resolve? ns <;> rfl

namespace Altered

/-- A tree is itself with the entry that it has. -/
theorem self (ha : a.WellFormed) (ns : List String) : Altered a (a.resolve? ns) ns a := by
  refine ⟨rfl, ha, fun ms => ?_⟩
  split
  · rename_i hms
    obtain ⟨ks, rfl⟩ := hms
    rw [List.drop_left, kindAt?_append]
  · rfl

theorem not_prefix_dropLast (hns : ns ≠ []) : ¬ ns <+: ns.dropLast := by
  intro h
  have hlength := h.length_le
  have hpos := List.length_pos_iff.mpr hns
  rw [List.length_dropLast] at hlength
  omega

theorem statusAt_elsewhere (h : Altered a entry ns u) (hms : ¬ ns <+: ms) :
    statusAt declared (some u) ms = statusAt declared (some a) ms := by
  refine statusAt_congr fun ks hks => ?_
  rw [h.kindAt?_eq, if_neg fun hle => hms (hle.trans hks)]

theorem statusAt_here (h : Altered a entry ns u) (hns : ns ≠ [])
    (hparent : statusAt (some e) (some a) ns.dropLast = some .compliant) :
    statusAt (some e) (some u) (ns ++ ks) = statusAt (e.resolve? ns) entry ks := by
  have hparent' : statusAt (some e) (some u) ns.dropLast = some .compliant :=
    (h.statusAt_elsewhere (not_prefix_dropLast hns)).trans hparent
  rw [statusAt_append_of_parent hns hparent']
  refine statusAt_congr fun js _ => ?_
  rw [Option.bind_some, ← kindAt?_append, h.kindAt?_eq, if_pos (List.prefix_append _ _),
    List.drop_left]

theorem statusAt_of_covered (h : Altered a entry ns u) (hns : ns ≠ [])
    (habove : kindAt? (some a) ns.dropLast = some .directory)
    (hparent : statusAt (some e) (some a) ns.dropLast ≠ some .compliant) :
    statusAt (some e) (some u) ms = statusAt (some e) (some a) ms := by
  by_cases hms : ns <+: ms
  · obtain ⟨ks, rfl⟩ := hms
    have hnot := not_prefix_dropLast hns
    rw [statusAt_eq_none_of_covered hns habove hparent]
    refine statusAt_eq_none_of_covered hns ?_ ?_
    · rw [h.kindAt?_eq, if_neg hnot, habove]
    · rw [h.statusAt_elsewhere hnot]
      exact hparent
  · exact h.statusAt_elsewhere hms

end Altered

/-! ## Paths -/

/-- Two directories of one name, of which the observed one has an entry altered. -/
structure Alteration (e a : Tree) (entry : Option Tree) (ns : List String) (u : Tree) : Prop where
  before : Counterparts e a
  altered : Altered a entry ns u
  ne_nil : ns ≠ []
  names : ∀ n ∈ ns, IsName n
  above : kindAt? (some a) ns.dropLast = some .directory

/-- An action that is possible in the observed directory alters it. -/
theorem Counterparts.exists_alter? (h : Counterparts e a) (hfits : action.Fits entry a ns)
    (hnames : ∀ n ∈ ns, IsName n) (hentry : ∀ c ∈ entry, c.WellFormed) :
    ∃ u, a.alter? action entry (joinNames e.name ns) = some u ∧ Alteration e a entry ns u := by
  obtain ⟨u, hu, halt⟩ := hfits.exists_editAt h.actual hentry
  refine ⟨u, ?_, h, halt, hfits.ne_nil, hnames, hfits.above⟩
  rw [h.name_eq, Tree.alter?_joinNames h.actual.isName hnames, hu]

theorem Counterparts.isSome_entryAt? (h : Counterparts e a)
    (hp : (compareRoots e a).value.results.find? p = some s) :
    (s ≠ .extra → (e.entryAt? e.name p).isSome) ∧
      (s ≠ .missing → (a.entryAt? a.name p).isSome) := by
  rw [results_compareRoots, h.alignRoots_eq] at hp
  rw [← h.name_eq]
  exact Alignment.isSome_entryAt? h.wellFormed hp

/-- A path keeps its status when the names that it joins do. -/
theorem Counterparts.find?_results_congr (h : Counterparts e a) (hu : Counterparts e u)
    (hq : ∀ ms, (∀ n ∈ ms, IsName n) → joinNames e.name ms = q →
      statusAt (some e) (some u) ms = statusAt (some e) (some a) ms) :
    (compareRoots e u).value.results.find? q = (compareRoots e a).value.results.find? q := by
  apply Option.ext
  intro s
  rw [hu.find?_results, h.find?_results]
  constructor
  · rintro ⟨ms, hms, hjoin, hs⟩
    exact ⟨ms, hms, hjoin, (hq ms (hu.isName_of_statusAt hs) hjoin).symm.trans hs⟩
  · rintro ⟨ms, hms, hjoin, hs⟩
    exact ⟨ms, hms, hjoin, (hq ms (h.isName_of_statusAt hs) hjoin).trans hs⟩

namespace Alteration

theorem after (h : Alteration e a entry ns u) : Counterparts e u := by
  refine ⟨h.before.declared, h.altered.wellFormed, h.before.declared_kind, ?_,
    h.before.name_eq.trans h.altered.name_eq.symm⟩
  have hroot := h.altered.kindAt?_eq []
  rw [if_neg (by simpa using h.ne_nil), kindAt?_nil, kindAt?_nil, Option.map_some, Option.map_some,
    Option.some.injEq] at hroot
  exact hroot.trans h.before.actual_kind

/-- The altered path and those below it join names that begin with those of the alteration. -/
theorem eq_or_isBelow_iff (h : Alteration e a entry ns u) (hms : ∀ n ∈ ms, IsName n) :
    joinNames e.name ms = joinNames e.name ns ∨
        isBelow (joinNames e.name ms) (joinNames e.name ns) ↔ ns <+: ms :=
  eq_or_isBelow_joinNames h.before.declared.isName hms h.names

theorem find?_elsewhere (h : Alteration e a entry ns u)
    (hq : ¬ (q = joinNames e.name ns ∨ isBelow q (joinNames e.name ns))) :
    (compareRoots e u).value.results.find? q = (compareRoots e a).value.results.find? q := by
  refine h.before.find?_results_congr h.after fun ms hms hjoin => ?_
  obtain rfl := hjoin
  exact h.altered.statusAt_elsewhere ((not_congr (h.eq_or_isBelow_iff hms)).mp hq)

theorem results_of_covered (h : Alteration e a entry ns u)
    (hparent : statusAt (some e) (some a) ns.dropLast ≠ some .compliant) :
    (compareRoots e u).value.results = (compareRoots e a).value.results :=
  Results.ext_find? fun _ => h.before.find?_results_congr h.after fun _ _ _ =>
    h.altered.statusAt_of_covered h.ne_nil h.above hparent

/-- From the path on it is the entry put there that counts. -/
theorem find?_here (h : Alteration e a entry ns u)
    (hparent : statusAt (some e) (some a) ns.dropLast = some .compliant)
    (hq : q = joinNames e.name ns ∨ isBelow q (joinNames e.name ns)) :
    (compareRoots e u).value.results.find? q = some s ↔
      ∃ ks, joinNames e.name (ns ++ ks) = q ∧ statusAt (e.resolve? ns) entry ks = some s := by
  rw [h.after.find?_results]
  constructor
  · rintro ⟨ms, _, rfl, hs⟩
    obtain ⟨ks, rfl⟩ := (h.eq_or_isBelow_iff (h.after.isName_of_statusAt hs)).mp hq
    rw [h.altered.statusAt_here h.ne_nil hparent] at hs
    exact ⟨ks, rfl, hs⟩
  · rintro ⟨ks, rfl, hs⟩
    refine ⟨ns ++ ks, by simp [h.ne_nil], rfl, ?_⟩
    rw [h.altered.statusAt_here h.ne_nil hparent, hs]

/-- Before, it was the entry that was there. -/
theorem find?_before (h : Alteration e a entry ns u)
    (hparent : statusAt (some e) (some a) ns.dropLast = some .compliant)
    (hq : q = joinNames e.name ns ∨ isBelow q (joinNames e.name ns)) :
    (compareRoots e a).value.results.find? q = some s ↔ ∃ ks, joinNames e.name (ns ++ ks) = q ∧
      statusAt (e.resolve? ns) (a.resolve? ns) ks = some s := by
  have hself : Alteration e a (a.resolve? ns) ns a :=
    ⟨h.before, .self h.before.actual ns, h.ne_nil, h.names, h.above⟩
  exact hself.find?_here hparent hq

end Alteration

end LayoutCheck
