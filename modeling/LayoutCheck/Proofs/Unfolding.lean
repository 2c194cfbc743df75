import LayoutCheck.Proofs.Scanned
import LayoutCheck.Scan.Graph

/-!
What a scan finds in a graph of directories.

The tree of a scan is the graph as it is seen from a directory, along the names that are not passed
over, as far as no directory is entered below itself (`scan_unfolds`). `Unfolds` is the relation
between what a name leads to and its tree; `Unfolds.eq_directory` and `unfolds_directory` say what
the tree of a directory is, and the rest follows by induction on trees and on paths of names.
-/

namespace LayoutCheck.DirectoryGraph

open Scan (isIgnored shown EntryEndsIn)

variable {δ : Type}

def entry? (g : DirectoryGraph δ) (d : δ) (name : String) : Option (Listed δ) :=
  match g.list d with
  | .ok entries => entries.find? (·.name = name)
  | .error _ => none

def reached? (g : DirectoryGraph δ) (d : δ) : List String → Option δ
  | [] => some d
  | n :: ns => ((g.entry? d n).bind Listed.way).bind (g.reached? · ns)

def SameUpToOrder (g g' : DirectoryGraph δ) : Prop :=
  ∀ d,
    match g.list d, g'.list d with
    | .ok entries, .ok entries' => entries.Perm entries'
    | .error _, .error _ => True
    | _, _ => False

variable {g g' : DirectoryGraph δ} {extra : List String} {ancestors : List δ} {d : δ}
  {target : Option δ} {e : Listed δ} {name n : String} {names : List String} {t u c : Tree}

theorem entry?_eq_some_iff :
    g.entry? d n = some e ↔ e.name = n ∧ ∃ entries, g.list d = .ok entries ∧ e ∈ entries := by
  unfold entry?
  cases hlist : g.list d with
  | error text => simp
  | ok entries =>
    simp only [Except.ok.injEq, exists_eq_left']
    constructor
    · intro h
      exact ⟨by simpa using List.find?_some h, List.mem_of_find?_eq_some h⟩
    · rintro ⟨rfl, he⟩
      exact find?_key_of_nodup (g.nodup_names d entries hlist) he

/-! ## Paths of names -/

theorem reached?_cons (hentry : g.entry? d n = some e) (ns : List String) :
    g.reached? d (n :: ns) = e.way.bind (g.reached? · ns) := by
  rw [reached?, hentry, Option.bind_some]

/-- The names lead through directories of which each lists the next name, which is not passed over,
and none is one of the ancestors or comes twice. -/
def Passes (g : DirectoryGraph δ) (extra : List String) (ancestors : List δ) (target : Option δ)
    (names : List String) : Prop :=
  ∀ i n, names[i]? = some n →
    ∃ here, target.bind (g.reached? · (names.take i)) = some here ∧ (g.entry? here n).isSome ∧
      ¬ isIgnored extra n ∧ here ∉ ancestors ∧
      ∀ j < i, target.bind (g.reached? · (names.take j)) ≠ some here

theorem not_passes_none {ns : List String} : ¬ g.Passes extra ancestors none (n :: ns) := by
  intro h
  obtain ⟨here, hhere, -⟩ := h 0 n rfl
  cases hhere

theorem passes_cons {ns : List String} (hentry : g.entry? d n = some e) :
    g.Passes extra ancestors (some d) (n :: ns) ↔
      d ∉ ancestors ∧ ¬ isIgnored extra n ∧ g.Passes extra (d :: ancestors) e.way ns := by
  have hstep : ∀ i, (some d).bind (g.reached? · ((n :: ns).take (i + 1))) =
      e.way.bind (g.reached? · (ns.take i)) := fun i => reached?_cons hentry _
  constructor
  · intro h
    obtain ⟨here, hhere, -, hn, hd, -⟩ := h 0 n rfl
    obtain rfl : d = here := Option.some.inj hhere
    refine ⟨hd, hn, fun i m hm => ?_⟩
    obtain ⟨here, hhere, hlisted, hignored, hanc, hnew⟩ := h (i + 1) m hm
    have hne : here ≠ d := fun he => hnew 0 (Nat.succ_pos i) (congrArg some he.symm)
    refine ⟨here, (hstep i).symm.trans hhere, hlisted, hignored, ?_, fun j hj => ?_⟩
    · exact List.not_mem_cons_of_ne_of_not_mem hne hanc
    · rw [← hstep j]
      exact hnew (j + 1) (Nat.succ_lt_succ hj)
  · rintro ⟨hd, hn, h⟩ (_ | i) m hm
    · obtain rfl : n = m := Option.some.inj hm
      exact ⟨d, rfl, by rw [hentry]; rfl, hn, hd, fun j hj => absurd hj (Nat.not_lt_zero j)⟩
    · obtain ⟨here, hhere, hlisted, hignored, hanc, hnew⟩ := h i m hm
      obtain ⟨hne, hanc⟩ := not_or.mp (mt List.mem_cons.mpr hanc)
      refine ⟨here, (hstep i).trans hhere, hlisted, hignored, hanc, ?_⟩
      rintro (_ | j) hj
      · exact fun he => hne (Option.some.inj he).symm
      · rw [hstep j]
        exact hnew j (Nat.lt_of_succ_lt_succ hj)

variable [DecidableEq δ]

/-! ## One directory -/

/-- The entries with which a directory is shown inside others. -/
def shownIn (g : DirectoryGraph δ) (extra : List String) (ancestors : List δ) (d : δ) :
    List (Listed δ) :=
  shown g.toSurroundings extra ⟨ancestors, d⟩

theorem mem_shownIn :
    e ∈ g.shownIn extra ancestors d ↔
      d ∉ ancestors ∧ g.entry? d e.name = some e ∧ ¬ isIgnored extra e.name := by
  rw [shownIn, Scan.mem_shown, entry?_eq_some_iff]
  simp only [Scan.arrive_eq_listed_iff, toSurroundings, Option.mem_def, Option.some.injEq,
    forall_eq', true_and]
  constructor
  · rintro ⟨entries, ⟨hd, hlist⟩, he, hn⟩
    exact ⟨hd, ⟨entries, hlist, he⟩, hn⟩
  · rintro ⟨hd, ⟨entries, hlist, he⟩, hn⟩
    exact ⟨entries, ⟨hd, hlist⟩, he, hn⟩

theorem pairwise_shownIn :
    (g.shownIn extra ancestors d).Pairwise (fun a b => a.name < b.name) :=
  Scan.pairwise_shown (g.nodup_names d)

theorem shownIn_of_sameUpToOrder (h : g.SameUpToOrder g') :
    g.shownIn extra ancestors d = g'.shownIn extra ancestors d := by
  have hsame := h d
  unfold shownIn shown Scan.arrive
  simp only [toSurroundings]
  by_cases hd : d ∈ ancestors
  · simp [hd]
  · split at hsame
    · rename_i entries entries' hlist hlist'
      simpa [hd, hlist, hlist'] using
        Scan.visible_of_perm hsame (g.nodup_names d entries hlist)
    · rename_i text text' hlist hlist'
      simp [hd, hlist, hlist']
    · exact hsame.elim

/-! ## The trees of a scan -/

/-- The tree that stands for a name listed in those directories. -/
def Unfolds (g : DirectoryGraph δ) (extra : List String) (ancestors : List δ) (e : Listed δ)
    (t : Tree) : Prop :=
  EntryEndsIn g.toSurroundings extra (g.directories.length + 1) ancestors e t

theorem exists_unfolds (g : DirectoryGraph δ) (extra : List String) (ancestors : List δ)
    (e : Listed δ) : ∃ t, g.Unfolds extra ancestors e t := by
  obtain ⟨name, _ | d⟩ := e
  · exact ⟨.leaf name, rfl⟩
  · exact Scan.exists_endsIn (g.nestsAtMost ⟨ancestors, d⟩) extra name

theorem Unfolds.unique (ht : g.Unfolds extra ancestors e t) (hu : g.Unfolds extra ancestors e u) :
    t = u :=
  Scan.EntryEndsIn.unique ht hu

/-- A name that leads to a directory stands for the trees of the shown entries. -/
theorem Unfolds.eq_directory (h : g.Unfolds extra ancestors ⟨name, some d⟩ t) :
    ∃ tree : Listed δ → Tree,
      t = .directory name none ((g.shownIn extra ancestors d).map tree) ∧
        ∀ e ∈ g.shownIn extra ancestors d,
          g.Unfolds extra (d :: ancestors) e (tree e) ∧ (tree e).name = e.name := by
  have hends : Scan.EndsIn g.toSurroundings extra (g.directories.length + 1)
      ⟨ancestors, d⟩ name t := h
  obtain ⟨tree, rfl, htree⟩ := hends.eq_directory (g.nestsAtMost _) (g.nodup_names d)
  exact ⟨tree, rfl, fun e he => ⟨(htree e he).1.mono (Nat.le_succ _), (htree e he).2⟩⟩

theorem unfolds_directory {tree : Listed δ → Tree}
    (h : ∀ e ∈ g.shownIn extra ancestors d, g.Unfolds extra (d :: ancestors) e (tree e)) :
    g.Unfolds extra ancestors ⟨name, some d⟩
      (.directory name none ((g.shownIn extra ancestors d).map tree)) := by
  obtain ⟨t, ht⟩ := g.exists_unfolds extra ancestors ⟨name, some d⟩
  obtain ⟨tree', rfl, htree'⟩ := ht.eq_directory
  rw [List.map_congr_left fun e he => (h e he).unique (htree' e he).1]
  exact ht

/-- Induction from the entries of a directory to the directory. -/
theorem Unfolds.induction {P : List δ → Listed δ → Tree → Prop}
    (leaf : ∀ ancestors name, P ancestors ⟨name, none⟩ (.leaf name))
    (directory : ∀ ancestors name d (tree : Listed δ → Tree),
      (∀ e ∈ g.shownIn extra ancestors d, (tree e).name = e.name ∧ P (d :: ancestors) e (tree e)) →
      P ancestors ⟨name, some d⟩ (.directory name none ((g.shownIn extra ancestors d).map tree)))
    (h : g.Unfolds extra ancestors e t) : P ancestors e t := by
  induction t using Tree.induction generalizing ancestors e with
  | file m desc =>
    obtain ⟨name, _ | d⟩ := e
    · have hleaf : Tree.file m desc = .leaf name := h
      exact hleaf ▸ leaf ancestors name
    · obtain ⟨tree, ht, -⟩ := h.eq_directory
      cases ht
  | directory m desc cs ih =>
    obtain ⟨name, _ | d⟩ := e
    · cases h
    · obtain ⟨tree, ht, htree⟩ := h.eq_directory
      cases ht
      exact directory ancestors m d tree fun e he =>
        ⟨(htree e he).2, ih _ (List.mem_map_of_mem he) (htree e he).1⟩

/-- No entry has a description, and siblings are in strictly ascending order. -/
theorem Unfolds.all (h : g.Unfolds extra ancestors e t) :
    t.All (fun u => u.description = none ∧ u.childNames.Pairwise (· < ·)) := by
  refine h.induction (P := fun _ _ t => t.All _) ?leaf ?directory
  case leaf =>
    intro ancestors name
    simp [Tree.leaf, Tree.description, Tree.childNames]
  case directory =>
    intro ancestors name d tree htree
    have hnames : ((g.shownIn extra ancestors d).map tree).map Tree.name =
        (g.shownIn extra ancestors d).map Listed.name := by
      simpa using fun e he => (htree e he).1
    refine Tree.all_directory.mpr ⟨⟨rfl, ?_⟩, fun c hc => ?_⟩
    · rw [Tree.childNames, Tree.children_directory, hnames]
      exact List.pairwise_map.mpr pairwise_shownIn
    · obtain ⟨e, he, rfl⟩ := List.mem_map.mp hc
      exact (htree e he).2

/-- In another order, the same entries have the same tree. -/
theorem Unfolds.of_sameUpToOrder (h : g.Unfolds extra ancestors e t) (hg : g.SameUpToOrder g') :
    g'.Unfolds extra ancestors e t := by
  refine h.induction (P := fun ancestors e t => g'.Unfolds extra ancestors e t) ?leaf ?directory
  case leaf => exact fun ancestors name => rfl
  case directory =>
    intro ancestors name d tree htree
    rw [shownIn_of_sameUpToOrder hg] at htree ⊢
    exact unfolds_directory fun e he => (htree e he).2

/-! ## What a tree contains -/

theorem Unfolds.child?_eq_some_iff (h : g.Unfolds extra ancestors ⟨name, some d⟩ t) :
    t.child? n = some c ↔ d ∉ ancestors ∧ ¬ isIgnored extra n ∧
      ∃ e, g.entry? d n = some e ∧ g.Unfolds extra (d :: ancestors) e c := by
  have hnodup : t.childNames.Nodup := h.all.here.2.imp String.ne_of_lt
  obtain ⟨tree, rfl, htree⟩ := h.eq_directory
  constructor
  · intro hc
    obtain ⟨e, he, rfl⟩ := List.mem_map.mp (Tree.mem_children_of_child? hc)
    obtain rfl : e.name = n := (htree e he).2.symm.trans (Tree.name_of_child? hc)
    obtain ⟨hd, hentry, hn⟩ := mem_shownIn.mp he
    exact ⟨hd, hn, e, hentry, (htree e he).1⟩
  · rintro ⟨hd, hn, e, hentry, hc⟩
    obtain rfl := (entry?_eq_some_iff.mp hentry).1
    have he : e ∈ g.shownIn extra ancestors d := mem_shownIn.mpr ⟨hd, hentry, hn⟩
    obtain rfl := hc.unique (htree e he).1
    rw [← (htree e he).2]
    exact Tree.child?_of_mem hnodup (List.mem_map_of_mem he)

/-- An entry that names lead to is a directory if they lead to one in the graph. -/
theorem Unfolds.kind_of_resolve? (h : g.Unfolds extra ancestors e t)
    (hu : t.resolve? names = some u) :
    u.kind = .directory ↔ (e.way.bind (g.reached? · names)).isSome := by
  induction names generalizing ancestors e t with
  | nil =>
    obtain rfl : t = u := by simpa using hu
    obtain ⟨name, _ | d⟩ := e
    · simp [show t = .leaf name from h, Tree.leaf]
    · obtain ⟨tree, rfl, -⟩ := h.eq_directory
      simp [reached?]
  | cons n ns ih =>
    rw [Tree.resolve?_cons] at hu
    obtain ⟨c, hc, hu⟩ := Option.bind_eq_some_iff.mp hu
    obtain ⟨name, _ | d⟩ := e
    · simp [show t = .leaf name from h, Tree.leaf] at hc
    · obtain ⟨-, -, e, hentry, he⟩ := h.child?_eq_some_iff.mp hc
      simpa [reached?, hentry] using ih he hu

/-- The tree contains the paths of names that can be passed. -/
theorem Unfolds.isSome_resolve?_iff (h : g.Unfolds extra ancestors e t) :
    (t.resolve? names).isSome ↔ g.Passes extra ancestors e.way names := by
  induction names generalizing ancestors e t with
  | nil => simp [Passes]
  | cons n ns ih =>
    obtain ⟨name, _ | d⟩ := e
    · rw [show t = .leaf name from h]
      simp [Tree.resolve?_cons, Tree.leaf, not_passes_none]
    · rw [Tree.resolve?_cons]
      constructor
      · intro hsome
        obtain ⟨u, hu⟩ := Option.isSome_iff_exists.mp hsome
        obtain ⟨c, hc, hu⟩ := Option.bind_eq_some_iff.mp hu
        obtain ⟨hd, hn, e, hentry, he⟩ := h.child?_eq_some_iff.mp hc
        exact (passes_cons hentry).mpr ⟨hd, hn, (ih he).mp (by simp [hu])⟩
      · intro hpasses
        obtain ⟨here, hhere, hsome, -⟩ := hpasses 0 n rfl
        obtain rfl : d = here := Option.some.inj hhere
        obtain ⟨e, hentry⟩ := Option.isSome_iff_exists.mp hsome
        obtain ⟨hd, hn, hrest⟩ := (passes_cons hentry).mp hpasses
        obtain ⟨c, hc⟩ := g.exists_unfolds extra (d :: ancestors) e
        rw [h.child?_eq_some_iff.mpr ⟨hd, hn, e, hentry, hc⟩]
        exact (ih hc).mpr hrest

/-- The outcome of a scan is the tree for its root. -/
theorem Unfolds.outcome_scan {path : String} (h : g.Unfolds extra [] ⟨name, some d⟩ t) :
    (g.scan extra path name d).outcome = .ok t :=
  Scan.outcome_scan rfl h

/--
A scan has a tree that contains exactly the paths of names along which each directory can be
listed, lists the next name and was not reached before, while the name is not passed over. The
entries that lead to directories are directories, none has a description, siblings are in strictly
ascending order, and the order in which directories list their entries does not matter.
-/
theorem scan_unfolds (g : DirectoryGraph δ) (extra : List String) (path name : String) (d : δ) :
    ∃ t, (g.scan extra path name d).outcome = .ok t ∧ t.name = name ∧
      (∀ names, (t.resolve? names).isSome ↔
        ∀ i n, names[i]? = some n →
          ∃ here, g.reached? d (names.take i) = some here ∧ (g.entry? here n).isSome ∧
            ¬ isIgnored extra n ∧ ∀ j < i, g.reached? d (names.take j) ≠ some here) ∧
      (∀ names u, t.resolve? names = some u →
        (u.kind = .directory ↔ (g.reached? d names).isSome)) ∧
      t.All (fun u => u.description = none ∧ u.childNames.Pairwise (· < ·)) ∧
      ∀ g' : DirectoryGraph δ, g.SameUpToOrder g' →
        (g'.scan extra path name d).outcome = .ok t := by
  obtain ⟨t, ht⟩ := g.exists_unfolds extra [] ⟨name, some d⟩
  refine ⟨t, ht.outcome_scan, ?_, fun names => ?_, fun names u hu => ht.kind_of_resolve? hu, ht.all,
    fun g' hg => (ht.of_sameUpToOrder hg).outcome_scan⟩
  · obtain ⟨tree, rfl, -⟩ := ht.eq_directory
    rfl
  · simpa [Passes] using ht.isSome_resolve?_iff

/-- A directory with another one below it that links back. -/
def backLink : DirectoryGraph Bool where
  directories := [false, true]
  mem_directories d := by cases d <;> simp
  list
    | false => .ok [⟨"src", some true⟩, ⟨".git", none⟩]
    | true => .ok [⟨"top", some false⟩, ⟨"main", none⟩]
  nodup_names := by
    rintro (_ | _) entries ⟨⟩ <;> decide

def backLinkReordered : DirectoryGraph Bool where
  directories := [false, true]
  mem_directories d := by cases d <;> simp
  list
    | false => .ok [⟨".git", none⟩, ⟨"src", some true⟩]
    | true => .ok [⟨"main", none⟩, ⟨"top", some false⟩]
  nodup_names := by
    rintro (_ | _) entries ⟨⟩ <;> decide

theorem scan_unfolds_backLink :
    ∃ t, (backLink.scan [] "top" "top" false).outcome = .ok t ∧
      (backLinkReordered.scan [] "top" "top" false).outcome = .ok t ∧
      (t.resolve? ["src", "top"]).isSome ∧ t.resolve? ["src", "top", "src"] = none ∧
      ∀ u, t.resolve? ["src", "top"] = some u → u.kind = .directory := by
  obtain ⟨t, ht, -, hpaths, hkinds, -, horder⟩ := backLink.scan_unfolds [] "top" "top" false
  have hreordered : backLink.SameUpToOrder backLinkReordered := by
    rintro (_ | _) <;> exact .swap ..
  refine ⟨t, ht, horder _ hreordered, (hpaths _).mpr ?_, ?_, fun u hu => (hkinds _ u hu).mpr rfl⟩
  · rintro (_ | _ | i) n hn
    · cases hn
      exact ⟨false, rfl, rfl, by decide, by simp⟩
    · cases hn
      refine ⟨true, rfl, rfl, by decide, fun j hj => ?_⟩
      obtain rfl : j = 0 := by omega
      decide
    · cases hn
  · refine Option.not_isSome_iff_eq_none.mp fun hsome => ?_
    obtain ⟨here, hhere, -, -, hnew⟩ := (hpaths _).mp hsome 2 "src" rfl
    obtain rfl : false = here := Option.some.inj hhere
    exact hnew 0 (by decide) rfl

end LayoutCheck.DirectoryGraph
