import LayoutCheck.Proofs.Verdict

/-!
Edits of a tree, each at the path of one entry.

An edit deletes an entry, or replaces or inserts the one that another tree declares at the same
path. One that fits the tree succeeds and makes it agree with the declaring tree from its path on;
everywhere else the tree stays as it is (`Edit.Fits.exists_apply`). So edits at paths of which none
lies above another all succeed, and each leaves its mark (`exists_foldlM_apply`).
-/

namespace LayoutCheck

namespace Tree

variable {t u c : Tree} {n : String} {entry : Option Tree}

/-- A directory with another entry of that name, or with none. -/
def setEntry (n : String) (entry : Option Tree) : Tree → Tree
  | file m d => file m d
  | directory m d cs =>
    match entry with
    | none => directory m d (cs.filter (·.name ≠ n))
    | some c => directory m d (place c cs)

@[simp] theorem name_setEntry : (t.setEntry n entry).name = t.name := by
  cases t <;> cases entry <;> rfl

@[simp] theorem kind_setEntry : (t.setEntry n entry).kind = t.kind := by
  cases t <;> cases entry <;> rfl

theorem find?_filter_name_ne (cs : List Tree) (n m : String) :
    (cs.filter (·.name ≠ n)).find? (·.name = m) =
      if m = n then none else cs.find? (·.name = m) := by
  by_cases h : m = n
  · subst h
    simp
  · rw [if_neg h, List.find?_filter]
    congr 1
    funext c
    by_cases hc : c.name = m <;> simp [hc, h]

theorem child?_setEntry (ht : t.kind = .directory) (hn : ∀ c ∈ entry, c.name = n) (m : String) :
    (t.setEntry n entry).child? m = if m = n then entry else t.child? m := by
  cases t with
  | file => simp at ht
  | directory k d cs =>
    cases entry with
    | none => exact find?_filter_name_ne cs n m
    | some c =>
      obtain rfl : c.name = n := hn c rfl
      exact find?_place c cs m

theorem NamedBy.setEntry {valid : String → Prop} (ht : t.NamedBy valid)
    (hc : ∀ c ∈ entry, c.NamedBy valid) : (t.setEntry n entry).NamedBy valid := by
  cases t with
  | file => exact ht
  | directory k d cs =>
    obtain ⟨hk, hnodup, hcs⟩ := namedBy_directory.mp ht
    cases entry with
    | none =>
      refine namedBy_directory.mpr ⟨hk, hnodup.sublist (List.filter_sublist.map name), ?_⟩
      exact fun o ho => hcs o (List.mem_filter.mp ho).1
    | some c =>
      refine namedBy_directory.mpr ⟨hk, nodup_names_place hnodup, fun o ho => ?_⟩
      rcases mem_place ho with rfl | ho
      · exact hc o rfl
      · exact hcs o ho

end Tree

/-! ## Edits at lists of names -/

inductive Action where
  | delete
  | replace
  | insert
  deriving DecidableEq, Repr

/-- Deals with the entry of a name: what is deleted or replaced must be there, what is inserted must
not, and `entry` must be given to take its place. -/
def Action.perform (action : Action) (entry : Option Tree) (n : String) (t : Tree) : Option Tree :=
  match action, entry, t.child? n with
  | .delete, _, some _ => some (t.setEntry n none)
  | .replace, some c, some _ => some (t.setEntry n (some c))
  | .insert, some c, none => if t.isDirectory then some (t.setEntry n (some c)) else none
  | _, _, _ => none

/-- Performs an action where the names lead; all of them but the last must lead to directories. -/
def Tree.editAt (action : Action) (entry : Option Tree) (t : Tree) : List String → Option Tree
  | [] => none
  | [n] => action.perform entry n t
  | n :: m :: ms =>
    (t.child? n).bind fun c =>
      (c.editAt action entry (m :: ms)).map fun u => t.setEntry n (some u)

variable {action : Action} {entry : Option Tree} {t u c e : Tree} {n : String} {ns ms : List String}

theorem perform_of_iff (ht : t.kind = .directory) (hthere : (t.child? n).isSome ↔ action ≠ .insert)
    (hentry : entry.isSome ↔ action ≠ .delete) :
    action.perform entry n t = some (t.setEntry n entry) := by
  have hdir : t.isDirectory = true := by simp [Tree.isDirectory, ht]
  unfold Action.perform
  cases action <;> cases entry <;> cases hc : t.child? n <;> simp_all

/-- The second tree is the first with `entry` where the names lead. -/
structure Altered (t : Tree) (entry : Option Tree) (ns : List String) (u : Tree) : Prop where
  name_eq : u.name = t.name
  wellFormed : u.WellFormed
  kindAt?_eq : ∀ ms, kindAt? (some u) ms =
    if ns <+: ms then kindAt? entry (ms.drop ns.length) else kindAt? (some t) ms

theorem altered_setEntry (ht : t.WellFormed) (hk : t.kind = .directory)
    (hn : ∀ c ∈ entry, c.name = n) (hc : ∀ c ∈ entry, c.WellFormed) :
    Altered t entry [n] (t.setEntry n entry) := by
  refine ⟨Tree.name_setEntry, Tree.NamedBy.setEntry ht hc, fun ms => ?_⟩
  cases ms with
  | nil => simp [kindAt?_nil]
  | cons m ms =>
    simp only [kindAt?_cons, observed?_some, Tree.child?_setEntry hk hn, List.cons_prefix_cons,
      List.nil_prefix, and_true, eq_comm (a := n)]
    split <;> rfl

/-- What is altered in an entry is altered in the directory that holds it. -/
theorem Altered.cons (h : Altered c entry ns u) (ht : t.WellFormed) (hc : t.child? n = some c) :
    Altered t entry (n :: ns) (t.setEntry n (some u)) := by
  have hn : ∀ o ∈ some u, o.name = n := by
    rintro _ ⟨⟩
    rw [h.name_eq, Tree.name_of_child? hc]
  have hstep := altered_setEntry ht (Tree.kind_of_child? hc) hn (by rintro _ ⟨⟩; exact h.wellFormed)
  refine ⟨hstep.name_eq, hstep.wellFormed, fun ms => ?_⟩
  rw [hstep.kindAt?_eq]
  cases ms with
  | nil => simp
  | cons m ms =>
    by_cases hm : n = m
    · subst hm
      simp [List.cons_prefix_cons, h.kindAt?_eq, kindAt?_cons, hc]
    · simp [List.cons_prefix_cons, hm]

structure Action.Fits (action : Action) (entry : Option Tree) (t : Tree) (ns : List String) :
    Prop where
  ne_nil : ns ≠ []
  above : kindAt? (some t) ns.dropLast = some .directory
  there : (kindAt? (some t) ns).isSome ↔ action ≠ .insert
  given : entry.isSome ↔ action ≠ .delete
  named : ∀ c ∈ entry, ns.getLast? = some c.name

theorem Action.Fits.tail {m : String} (h : action.Fits entry t (n :: m :: ms)) :
    ∃ c, t.child? n = some c ∧ action.Fits entry c (m :: ms) := by
  have habove := h.above
  have hthere := h.there
  rw [List.dropLast_cons_cons, kindAt?_cons, observed?_some] at habove
  rw [kindAt?_cons, observed?_some] at hthere
  cases hc : t.child? n with
  | none => simp [hc, kindAt?] at habove
  | some c =>
    rw [hc] at habove hthere
    refine ⟨c, rfl, by simp, habove, hthere, h.given, fun d hd => ?_⟩
    rw [← h.named d hd, List.getLast?_cons_cons]

/-- An action that is possible succeeds and alters nothing else. -/
theorem Action.Fits.exists_editAt (h : action.Fits entry t ns) (ht : t.WellFormed)
    (hentry : ∀ c ∈ entry, c.WellFormed) :
    ∃ u, t.editAt action entry ns = some u ∧ Altered t entry ns u := by
  induction ns generalizing t with
  | nil => exact absurd rfl h.ne_nil
  | cons n ns ih =>
    cases ns with
    | nil =>
      have hk : t.kind = .directory := by simpa [kindAt?_nil] using h.above
      have hthere : (t.child? n).isSome ↔ action ≠ .insert := by
        rw [← h.there, kindAt?_cons, observed?_some, kindAt?_nil, Option.isSome_map]
      have hn : ∀ c ∈ entry, c.name = n := fun c hc => by simpa [eq_comm] using h.named c hc
      exact ⟨_, perform_of_iff hk hthere h.given, altered_setEntry ht hk hn hentry⟩
    | cons m ms =>
      obtain ⟨c, hc, hfits⟩ := h.tail
      obtain ⟨u, hu, halt⟩ := ih hfits (Tree.All.child? ht hc)
      refine ⟨t.setEntry n (some u), ?_, halt.cons ht hc⟩
      simp [Tree.editAt, hc, hu]

/-! ## Edits at paths -/

def Tree.alter? (action : Action) (entry : Option Tree) (path : String) (t : Tree) : Option Tree :=
  match namesOf path with
  | [] => none
  | root :: ns => if root = t.name then t.editAt action entry ns else none

theorem Tree.alter?_joinNames (ht : IsName t.name) (hns : ∀ n ∈ ns, IsName n) :
    t.alter? action entry (joinNames t.name ns) = t.editAt action entry ns := by
  simp [alter?, namesOf_joinNames ht hns]

@[ext] structure Edit where
  action : Action
  path : String
  deriving DecidableEq, Repr

namespace Edit

def names (x : Edit) : List String := (namesOf x.path).tail

/-- Performs an edit below the root of a tree, with the entry that another one declares there. -/
def apply (declared t : Tree) (x : Edit) : Option Tree :=
  match namesOf x.path with
  | [] => none
  | root :: ns =>
    if root = t.name then t.editAt x.action (declared.resolve? ns) ns else none

theorem apply_eq_alter? (declared t : Tree) (x : Edit) :
    x.apply declared t = t.alter? x.action (declared.resolve? x.names) x.path := by
  rw [apply, Tree.alter?, names]
  cases namesOf x.path <;> rfl

def Apart (x y : Edit) : Prop :=
  x.path ≠ y.path ∧ ¬ isBelow x.path y.path ∧ ¬ isBelow y.path x.path

structure Fits (declared t : Tree) (x : Edit) : Prop where
  path : x.path = joinNames t.name x.names
  names : ∀ n ∈ x.names, IsName n
  ne_nil : x.names ≠ []
  above : kindAt? (some t) x.names.dropLast = some .directory
  there : (kindAt? (some t) x.names).isSome ↔ x.action ≠ .insert
  given : (kindAt? (some declared) x.names).isSome ↔ x.action ≠ .delete

variable {x y : Edit} {root : String} {declared : Tree}

theorem Apart.symm (h : x.Apart y) : y.Apart x := ⟨h.1.symm, h.2.2, h.2.1⟩

theorem apart_iff (hr : IsName root) (hx : x.path = joinNames root x.names)
    (hy : y.path = joinNames root y.names) (hxn : ∀ n ∈ x.names, IsName n)
    (hyn : ∀ n ∈ y.names, IsName n) :
    x.Apart y ↔ ¬ x.names <+: y.names ∧ ¬ y.names <+: x.names := by
  have hxy := eq_or_isBelow_joinNames hr hxn hyn
  have hyx := eq_or_isBelow_joinNames hr hyn hxn
  rw [← hx, ← hy] at hxy hyx
  rw [Apart, ← hxy, ← hyx]
  simp only [not_or, eq_comm (a := y.path)]
  tauto

end Edit

/-- A tree that is like `declared` at the names for which `here` holds, and elsewhere like `t`. -/
structure Merged (declared t : Tree) (here : List String → Prop) (u : Tree) : Prop where
  name_eq : u.name = t.name
  wellFormed : u.WellFormed
  of_here : ∀ ms, here ms → kindAt? (some u) ms = kindAt? (some declared) ms
  of_not_here : ∀ ms, ¬ here ms → kindAt? (some u) ms = kindAt? (some t) ms

namespace Edit

variable {x : Edit} {declared : Tree} {here : List String → Prop}

/-- An edit that fits succeeds, and makes a difference from its path on only. -/
theorem Fits.exists_apply (h : x.Fits declared t) (hd : declared.WellFormed) (ht : t.WellFormed) :
    ∃ u, x.apply declared t = some u ∧ Merged declared t (x.names <+: ·) u := by
  have hfits : x.action.Fits (declared.resolve? x.names) t x.names := by
    refine ⟨h.ne_nil, h.above, h.there, ?_, fun c hc => Tree.getLast?_of_resolve? hc h.ne_nil⟩
    rw [← h.given, kindAt?, Option.bind_some, Option.isSome_map]
  obtain ⟨u, hu, halt⟩ := hfits.exists_editAt ht fun c hc => Tree.All.resolve? hd hc
  refine ⟨u, ?_, halt.name_eq, halt.wellFormed, ?_, ?_⟩
  · rw [apply_eq_alter?, h.path, Tree.alter?_joinNames ht.isName h.names, hu]
  · rintro _ ⟨ms, rfl⟩
    rw [halt.kindAt?_eq, if_pos (List.prefix_append _ _), List.drop_left, kindAt?_append]
  · intro ms hms
    rw [halt.kindAt?_eq, if_neg hms]

/-- What fits still fits where nothing was changed down to its path. -/
theorem Fits.of_merged (h : x.Fits declared t) (hu : Merged declared t here u)
    (hhere : ∀ ms, ms <+: x.names → ¬ here ms) : x.Fits declared u := by
  refine ⟨hu.name_eq ▸ h.path, h.names, h.ne_nil, ?_, ?_, h.given⟩
  · rw [hu.of_not_here _ (hhere _ (List.dropLast_prefix _))]
    exact h.above
  · rw [hu.of_not_here _ (hhere _ List.prefix_rfl)]
    exact h.there

end Edit

/-- Edits that fit and are apart from each other succeed one after the other, and make a difference
from their paths on only. -/
theorem exists_foldlM_apply {declared : Tree} {plan : List Edit} (hd : declared.WellFormed)
    (ht : t.WellFormed) (hfits : ∀ x ∈ plan, x.Fits declared t)
    (hapart : plan.Pairwise Edit.Apart) :
    ∃ u, plan.foldlM (Edit.apply declared) t = some u ∧
      Merged declared t (fun ms => ∃ x ∈ plan, x.names <+: ms) u := by
  induction plan generalizing t with
  | nil => exact ⟨t, rfl, rfl, ht, by simp, by simp⟩
  | cons x xs ih =>
    obtain ⟨hx, hxs⟩ := List.forall_mem_cons.mp hfits
    obtain ⟨hxapart, hxsapart⟩ := List.pairwise_cons.mp hapart
    obtain ⟨v, hv, hmerged⟩ := hx.exists_apply hd ht
    have hrest : ∀ y ∈ xs, y.Fits declared v := by
      intro y hy
      have hyfits := hxs y hy
      have hnot := (Edit.apart_iff ht.isName hx.path hyfits.path hx.names hyfits.names).mp
        (hxapart y hy)
      exact hyfits.of_merged hmerged fun ms hms hle => hnot.1 (hle.trans hms)
    obtain ⟨u, hu, hmerged'⟩ := ih hmerged.wellFormed hrest hxsapart
    refine ⟨u, ?_, hmerged'.name_eq.trans hmerged.name_eq, hmerged'.wellFormed, ?_, ?_⟩
    · rw [List.foldlM_cons, hv]
      exact hu
    · intro ms hms
      by_cases hxs : ∃ y ∈ xs, y.names <+: ms
      · exact hmerged'.of_here ms hxs
      · rw [hmerged'.of_not_here ms hxs]
        have hhere : x.names <+: ms := by simpa [hxs] using hms
        exact hmerged.of_here ms hhere
    · intro ms hms
      obtain ⟨hx, hxs⟩ : ¬ x.names <+: ms ∧ ¬ ∃ y ∈ xs, y.names <+: ms := by simpa using hms
      rw [hmerged'.of_not_here ms hxs, hmerged.of_not_here ms hx]

end LayoutCheck
