import LayoutCheck.Proofs.Alteration

/-!
Entries that the comparison does not look into.

Nothing inside an entry is looked at that is not declared, or declared of the other kind. One entry
may then stand in for another of its name: where what is declared cannot tell them apart
(`SameSteps`), neither can the comparison of trees that hold one or the other (`Alike`,
`Alike.results_eq`). So a well-formed entry can stand in for one with any contents
(`Counterparts.exists_alter?_of_sameSteps`).
-/

namespace LayoutCheck

variable {e a c c₀ d t u v : Tree} {ns ms : List String} {n : String} {action : Action}

def SameSteps (declared u v : Tree) : Prop :=
  ∀ above, compareSteps above (some u) declared = compareSteps above (some v) declared

theorem compareSteps_of_kind_ne (above : String) (h : e.kind ≠ u.kind) :
    compareSteps above (some u) e = mismatchSteps (joinPath above e.name) e.kind u.kind := by
  cases e with
  | file n d =>
    cases hu : u.kind with
    | file => exact absurd hu.symm h
    | directory =>
      simp only [compareSteps, hu]
      rfl
  | directory n d cs =>
    cases hu : u.kind with
    | file =>
      simp only [compareSteps, hu]
      rfl
    | directory => exact absurd hu.symm h

/-- Of an entry of the other kind only the kind is seen. -/
theorem SameSteps.of_kind_ne (hk : u.kind = v.kind) (hne : e.kind ≠ u.kind) : SameSteps e u v := by
  intro above
  rw [compareSteps_of_kind_ne above hne, compareSteps_of_kind_ne above (hk ▸ hne), hk]

theorem compareBelow_congr {cs : List Tree} (path : String)
    (h : ∀ c ∈ cs, compareSteps path (u.child? c.name) c = compareSteps path (v.child? c.name) c) :
    compareBelow path u cs = compareBelow path v cs := by
  induction cs with
  | nil => rfl
  | cons c cs ih =>
    rw [compareBelow, compareBelow, h c (List.mem_cons_self ..),
      ih fun d hd => h d (List.mem_cons_of_mem c hd)]

/-- A comparison sees the kind of a directory, its names, and what its steps see in the entries. -/
theorem SameSteps.of_children (hk : u.kind = v.kind) (hnames : u.childNames = v.childNames)
    (h : ∀ c ∈ e.children, ∀ above,
      compareSteps above (u.child? c.name) c = compareSteps above (v.child? c.name) c) :
    SameSteps e u v := by
  intro above
  cases e with
  | file => simp only [compareSteps, hk]
  | directory n d cs =>
    have hbelow : compareBelow (joinPath above n) u cs = compareBelow (joinPath above n) v cs :=
      compareBelow_congr _ fun c hc => h c hc _
    have hextra : extraSteps (joinPath above n) cs u = extraSteps (joinPath above n) cs v := by
      rw [extraSteps, extraSteps, hnames]
    simp only [compareSteps, hk, hbelow, hextra]

theorem SameSteps.alignedSteps_eq (hk : u.kind = v.kind) (h : SameSteps e u v) :
    alignedSteps e u = alignedSteps e v := by
  have hsteps := h ""
  cases e with
  | file => cases hv : v.kind <;> simp [alignedSteps, hk, hv, hsteps]
  | directory n d cs =>
    cases hv : v.kind with
    | file => simp [alignedSteps, hk, hv, hsteps]
    | directory =>
      simp only [compareSteps, hk, hv, joinPath_empty] at hsteps
      simpa [alignedSteps, hk, hv] using List.append_cancel_right hsteps

/-- Trees that look the same to whatever cannot tell `c` from `c₀` where the names lead. -/
structure Alike (c c₀ : Tree) (ns : List String) (u v : Tree) : Prop where
  name_eq : u.name = v.name
  kind_eq : u.kind = v.kind
  sameSteps : ∀ e : Tree, e.Distinct → (∀ d ∈ e.resolve? ns, SameSteps d c c₀) → SameSteps e u v

theorem map_name_place (h : u.name = v.name) (cs : List Tree) :
    (Tree.place u cs).map Tree.name = (Tree.place v cs).map Tree.name := by
  induction cs with
  | nil => simp [Tree.place, h]
  | cons b cs ih =>
    by_cases hb : b.name = v.name
    · simp [Tree.place, h, hb]
    · simp [Tree.place, h, hb, ih]

/-- Directories that differ in one entry look the same where that does. -/
theorem Alike.setEntry (ht : t.kind = .directory) (hu : u.name = n) (hv : v.name = n)
    (h : ∀ e : Tree, e.Distinct → (∀ d ∈ e.resolve? ms, SameSteps d c c₀) → SameSteps e u v) :
    Alike c c₀ (n :: ms) (t.setEntry n (some u)) (t.setEntry n (some v)) := by
  refine ⟨by simp, by simp, fun e he hsame => ?_⟩
  refine SameSteps.of_children (by simp) ?_ fun b hb above => ?_
  · cases t with
    | file => rfl
    | directory m d cs => exact map_name_place (hu.trans hv.symm) cs
  · rw [Tree.child?_setEntry ht (by simpa using hu), Tree.child?_setEntry ht (by simpa using hv)]
    split
    · rename_i hbn
      have hchild : e.child? n = some b := hbn ▸ Tree.child?_of_mem he.nodup hb
      rw [Tree.resolve?_cons, hchild, Option.bind_some] at hsame
      exact h b (he.of_mem_children hb) hsame above
    · rfl

/-- One or the other of two entries of a name, put in one place, gives trees that look alike. -/
theorem Action.Fits.exists_alike (h : action.Fits (some c₀) t ns) (hc : c.name = c₀.name) :
    ∃ u v, t.editAt action (some c) ns = some u ∧ t.editAt action (some c₀) ns = some v ∧
      v.name = t.name ∧ Alike c c₀ ns u v := by
  have hgiven : (some c).isSome ↔ action ≠ .delete := h.given
  induction ns generalizing t with
  | nil => exact absurd rfl h.ne_nil
  | cons n ns ih =>
    cases ns with
    | nil =>
      have hk : t.kind = .directory := by simpa [kindAt?_nil] using h.above
      have hthere : (t.child? n).isSome ↔ action ≠ .insert := by
        rw [← h.there, kindAt?_cons, observed?_some, kindAt?_nil, Option.isSome_map]
      have hn : c₀.name = n := by simpa [eq_comm] using h.named c₀ rfl
      refine ⟨_, _, perform_of_iff hk hthere hgiven, perform_of_iff hk hthere h.given,
        Tree.name_setEntry, .setEntry hk (hc.trans hn) hn fun e _ hsame => ?_⟩
      exact hsame e rfl
    | cons m ms =>
      obtain ⟨o, ho, hfits⟩ := h.tail
      obtain ⟨u, v, hu, hv, hname, halike⟩ := ih hfits
      have hvn : v.name = n := hname.trans (Tree.name_of_child? ho)
      refine ⟨t.setEntry n (some u), t.setEntry n (some v), ?_, ?_, Tree.name_setEntry,
        .setEntry (Tree.kind_of_child? ho) (halike.name_eq.trans hvn) hvn halike.sameSteps⟩
      · simp [Tree.editAt, ho, hu]
      · simp [Tree.editAt, ho, hv]

theorem Alike.results_eq (h : Alike c c₀ ns u v) (hv : Counterparts e v)
    (hsame : ∀ d ∈ e.resolve? ns, SameSteps d c c₀) :
    (compareRoots e u).value.results = (compareRoots e v).value.results := by
  have hsteps : alignedSteps e u = alignedSteps e v :=
    (h.sameSteps e hv.declared.distinct hsame).alignedSteps_eq h.kind_eq
  have hu : alignRoots e u = ⟨.sameName e.name, e, u⟩ :=
    (LinesUp.sameName (hv.name_eq.trans h.name_eq.symm)).alignRoots_eq
  rw [results_compareRoots, results_compareRoots, hu, hv.alignRoots_eq]
  simp only [Alignment.results, Alignment.steps, hsteps]

/--
An action may put an entry with any contents in its place, if what is declared there cannot tell it
from a well-formed one of its name: the results are those for that one.
-/
theorem Counterparts.exists_alter?_of_sameSteps (h : Counterparts e a)
    (hfits : action.Fits (some c₀) a ns) (hnames : ∀ n ∈ ns, IsName n) (hc₀ : c₀.WellFormed)
    (hc : c.name = c₀.name) (hsame : ∀ d ∈ e.resolve? ns, SameSteps d c c₀) :
    ∃ u v, a.alter? action (some c) (joinNames e.name ns) = some u ∧
      Alteration e a (some c₀) ns v ∧
      (compareRoots e u).value.results = (compareRoots e v).value.results := by
  obtain ⟨v, hv, halt⟩ := h.exists_alter? hfits hnames (by rintro _ ⟨⟩; exact hc₀)
  obtain ⟨u, v', hu, hv', _, halike⟩ := hfits.exists_alike hc
  rw [h.name_eq, Tree.alter?_joinNames h.actual.isName hnames] at hv ⊢
  obtain rfl : v' = v := Option.some.inj (hv'.symm.trans hv)
  exact ⟨u, v', hu, halt, halike.results_eq halt.after hsame⟩

end LayoutCheck
