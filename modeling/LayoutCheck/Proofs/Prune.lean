import LayoutCheck.Proofs.Pointwise

/-!
Trees without the entries of certain names.

`prune` leaves out each entry with such a name, with all that is below it, but never the root. A
name leads to what it led to before, pruned as well, unless it is left out (`child?_prune`).
Compared with its pruned copy, a tree is compliant where no name is left out and missing elsewhere
(`statusAt_prune`). A branch can be pruned before its entries are arranged (`prune_branch`), and
pruning twice leaves out the names of both (`prune_prune`).
-/

namespace LayoutCheck

namespace Tree

mutual

/-- The tree without the entries that have certain names. -/
def prune (out : String → Bool) : Tree → Tree
  | file n d => file n d
  | directory n d cs => directory n d (pruneAll out cs)

def pruneAll (out : String → Bool) : List Tree → List Tree
  | [] => []
  | c :: cs => if out c.name then pruneAll out cs else prune out c :: pruneAll out cs

end

variable {out : String → Bool} {valid : String → Prop} {t : Tree} {n : String}

@[simp] theorem name_prune (out : String → Bool) (t : Tree) : (t.prune out).name = t.name := by
  cases t <;> rfl

@[simp] theorem kind_prune (out : String → Bool) (t : Tree) : (t.prune out).kind = t.kind := by
  cases t <;> rfl

theorem pruneAll_eq (out : String → Bool) (cs : List Tree) :
    pruneAll out cs = (cs.filter (fun c => !out c.name)).map (prune out) := by
  induction cs with
  | nil => rfl
  | cons c cs ih => by_cases h : out c.name <;> simp [pruneAll, h, ih]

theorem children_prune (out : String → Bool) (t : Tree) :
    (t.prune out).children = (t.children.filter (fun c => !out c.name)).map (prune out) := by
  cases t with
  | file => rfl
  | directory n d cs => exact pruneAll_eq out cs

theorem child?_prune (out : String → Bool) (t : Tree) (n : String) :
    (t.prune out).child? n = if out n then none else (t.child? n).map (prune out) := by
  have hname : (fun c : Tree => decide (c.name = n)) ∘ Tree.prune out =
      fun c => decide (c.name = n) := by
    funext c
    simp
  rw [child?, child?, children_prune, List.find?_map, List.find?_filter, hname]
  split
  · rename_i hn
    rw [List.find?_eq_none.mpr, Option.map_none]
    rintro c - hc
    simp only [Bool.not_eq_true', decide_eq_true_eq] at hc
    obtain ⟨hkept, rfl⟩ := hc
    simp [hkept] at hn
  · rename_i hn
    congr 2
    funext c
    by_cases hc : c.name = n <;> simp [hc, hn]

theorem NamedBy.prune (h : t.NamedBy valid) : (t.prune out).NamedBy valid := by
  induction t using Tree.induction with
  | file n d => exact h
  | directory n d cs ih =>
    obtain ⟨hn, hcs, hvalid⟩ := namedBy_directory.mp h
    have hnames : ((pruneAll out cs).map name).Sublist (cs.map name) := by
      have hkept : (cs.filter (fun c => !out c.name)).Sublist cs := List.filter_sublist
      simpa [pruneAll_eq, Function.comp_def] using hkept.map name
    refine namedBy_directory.mpr ⟨hn, List.Pairwise.sublist hnames hcs, fun c hc => ?_⟩
    rw [pruneAll_eq] at hc
    obtain ⟨b, hb, rfl⟩ := List.mem_map.mp hc
    have hb := (List.mem_filter.mp hb).1
    exact ih b hb (hvalid b hb)

/-! ## Arranged entries -/

theorem filter_place (kept : String → Bool) (entry : Tree) (cs : List Tree) :
    (place entry cs).filter (kept ·.name) =
      if kept entry.name then place entry (cs.filter (kept ·.name))
      else cs.filter (kept ·.name) := by
  induction cs with
  | nil => by_cases h : kept entry.name <;> simp [place, h]
  | cons c cs ih =>
    by_cases hc : c.name = entry.name
    · by_cases h : kept entry.name <;> simp [place, hc, h]
    · by_cases h : kept c.name <;> by_cases he : kept entry.name <;> simp_all [place]

theorem filter_arrange (kept : String → Bool) (entries : List Tree) :
    (arrange entries).filter (kept ·.name) = arrange (entries.filter (kept ·.name)) := by
  suffices h : ∀ placed : List Tree,
      (entries.foldl (fun cs e => place e cs) placed).filter (kept ·.name) =
        (entries.filter (kept ·.name)).foldl (fun cs e => place e cs)
          (placed.filter (kept ·.name)) from h []
  intro placed
  induction entries generalizing placed with
  | nil => rfl
  | cons e es ih =>
    rw [List.foldl_cons, ih, filter_place]
    by_cases he : kept e.name <;> simp [he]

theorem map_place {f : Tree → Tree} (hf : ∀ t, (f t).name = t.name) (entry : Tree)
    (cs : List Tree) : (place entry cs).map f = place (f entry) (cs.map f) := by
  induction cs with
  | nil => rfl
  | cons c cs ih => by_cases hc : c.name = entry.name <;> simp [place, hf, hc, ih]

theorem map_arrange {f : Tree → Tree} (hf : ∀ t, (f t).name = t.name) (entries : List Tree) :
    (arrange entries).map f = arrange (entries.map f) := by
  rw [arrange, arrange, List.foldl_map]
  exact (List.foldl_hom (List.map f) fun cs e => (map_place hf e cs).symm).symm

/-- The entries of a branch can be left out before they are arranged. -/
theorem prune_branch (out : String → Bool) (n : String) (cs : List Tree) :
    (branch n cs).prune out = branch n ((cs.filter (fun c => !out c.name)).map (prune out)) := by
  rw [branch, prune, pruneAll_eq, branch, ← map_arrange (name_prune out),
    ← filter_arrange (fun m => !out m)]

theorem prune_prune (out out' : String → Bool) (t : Tree) :
    (t.prune out).prune out' = t.prune (fun n => out n || out' n) := by
  induction t using Tree.induction with
  | file => rfl
  | directory n d cs ih =>
    have hkept : cs.filter (fun c => ((fun c => !out' c.name) ∘ prune out) c && !out c.name) =
        cs.filter (fun c => !(out c.name || out' c.name)) := by
      refine List.filter_congr fun c _ => ?_
      simp [Bool.and_comm]
    rw [prune, prune, prune, pruneAll_eq, pruneAll_eq, pruneAll_eq, List.filter_map,
      List.filter_filter, List.map_map, hkept]
    exact congrArg _ (List.map_congr_left fun c hc => ih c (List.mem_of_mem_filter hc))

end Tree

/-- Everything is missing where nothing is there. -/
theorem statusAt_missing (t : Tree) (ns : List String) :
    statusAt (some t) none ns = (t.resolve? ns).map fun _ => .missing := by
  apply Option.ext
  intro s
  rw [statusAt_none_actual]
  cases t.resolve? ns <;> simp [eq_comm]

theorem statusAt_prune (t : Tree) (out : String → Bool) (ns : List String) :
    statusAt (some t) (some (t.prune out)) ns =
      (t.resolve? ns).map fun _ => if ns.any out then .missing else .compliant := by
  induction ns generalizing t with
  | nil => simp [verdict]
  | cons n ns ih =>
    rw [statusAt_cons, if_neg (by simp [verdict]), observed?_some, Tree.child?_prune,
      Tree.resolve?_cons]
    cases hc : t.child? n with
    | none => simp
    | some c =>
      by_cases hn : out n
      · simp [hn, statusAt_missing]
      · simp [hn, ih c]

end LayoutCheck
