import LayoutCheck.Scan.Walk
import LayoutCheck.Tree

/-!
Walks through directories.

A walk comes to a directory on a way, and what it finds there can depend on the way: a name may lead
to a directory only while few links were followed. Links can lead anywhere, so a directory that is
entered again below itself is left empty. Entries come in the order of their names, whatever order a
directory lists them in.

`directory` is the walk, for any surroundings; it fails where it would go deeper than its limit.
`EndsIn` says in which tree it ends when the limit is not too low, and `endsIn_shown` puts that tree
together from those of the entries. Where visits nest only so deep there is such a tree
(`exists_endsIn`). They do if there are only so many directories (`nestsAtMost_of_knownBy`) or ways
get longer and are not followed beyond some length (`nestsAtMost_of_size`).
-/

namespace LayoutCheck

/-- A name in a directory, and the way on if it leads to a directory. -/
structure Listed (ω : Type) where
  name : String
  way : Option ω
  deriving DecidableEq, Repr

/-- What a scan can learn about directories, from the ways that lead to them. -/
structure Surroundings (ω δ : Type) where
  /-- which directory it is, if that can be found out -/
  identity : ω → Option δ
  /-- what the directory lists, or an error text -/
  list : ω → Except String (List (Listed ω))

/-- The path of an entry below a path, as it is shown. -/
def childPath (path name : String) : String :=
  if path = "" then name
  else if path.toList.getLast? = some '/' then path ++ name
  else path ++ "/" ++ name

namespace Scan

/-- The names that are passed over everywhere, besides hidden ones. -/
def ignoredNames : List String := ["target", "__pycache__", "node_modules", "build"]

/-- A name is passed over if it is hidden, in the built-in list or in the other. -/
def isIgnored (extra : List String) (name : String) : Bool :=
  name.toList.head? = some '.' || ignoredNames.contains name || extra.contains name

variable {ω δ : Type}

/-- A message for each entry that is passed over. -/
def ignoredMessages (extra : List String) (path : String) (entries : List (Listed ω)) :
    List Message :=
  (entries.filter (fun e => isIgnored extra e.name)).map
    (fun e => ⟨.debug, "Ignoring " ++ childPath path e.name⟩)

/-- The entries that are not passed over, in the order of their names. -/
def visible (extra : List String) (entries : List (Listed ω)) : List (Listed ω) :=
  (entries.filter (fun e => !isIgnored extra e.name)).mergeSort
    (fun a b => decide (a.name ≤ b.name))

theorem mem_visible {extra : List String} {entries : List (Listed ω)} {e : Listed ω} :
    e ∈ visible extra entries ↔ e ∈ entries ∧ ¬ isIgnored extra e.name := by
  simp [visible, (List.mergeSort_perm _ _).mem_iff]

/-- The visit of the directory at the end of a way, on a walk that is in the ancestors. -/
structure Visit (ω δ : Type) where
  ancestors : List δ
  way : ω

/-- The directories that a walk is in while it goes through the entries of the visited one. -/
def Visit.inside (s : Surroundings ω δ) (v : Visit ω δ) : List δ :=
  (s.identity v.way).toList ++ v.ancestors

/-- What there is to do on a visit. -/
inductive Arrival (ω : Type) where
  /-- nothing, since the directory is one of the ancestors -/
  | again
  /-- nothing, since the directory cannot be listed -/
  | unlisted (text : String)
  /-- to go through the entries of the directory -/
  | listed (entries : List (Listed ω))

variable [DecidableEq δ]

def arrive (s : Surroundings ω δ) (v : Visit ω δ) : Arrival ω :=
  if (s.identity v.way).any (· ∈ v.ancestors) then .again
  else
    match s.list v.way with
    | .error text => .unlisted text
    | .ok entries => .listed entries

theorem arrive_eq_listed_iff {s : Surroundings ω δ} {v : Visit ω δ} {entries : List (Listed ω)} :
    arrive s v = .listed entries ↔
      (∀ d ∈ s.identity v.way, d ∉ v.ancestors) ∧ s.list v.way = .ok entries := by
  unfold arrive
  cases s.identity v.way with
  | none => cases s.list v.way <;> simp
  | some d => by_cases h : d ∈ v.ancestors <;> cases s.list v.way <;> simp [h]

/-- The entries that are walked: none where there is nothing to do. -/
def shown (s : Surroundings ω δ) (extra : List String) (v : Visit ω δ) : List (Listed ω) :=
  match arrive s v with
  | .listed entries => visible extra entries
  | _ => []

theorem shown_of_listed {s : Surroundings ω δ} {extra : List String} {v : Visit ω δ}
    {entries : List (Listed ω)} (h : arrive s v = .listed entries) :
    shown s extra v = visible extra entries := by
  simp [shown, h]

theorem mem_shown {s : Surroundings ω δ} {extra : List String} {v : Visit ω δ} {e : Listed ω} :
    e ∈ shown s extra v ↔
      ∃ entries, arrive s v = .listed entries ∧ e ∈ entries ∧ ¬ isIgnored extra e.name := by
  unfold shown
  cases arrive s v <;> simp [mem_visible]

/-- A visit of the directory at the end of a way, of which the path and the name are given, as is
the walk through its entries. -/
def visit (s : Surroundings ω δ) (extra : List String)
    (inside : List (Listed ω) → Walk δ (List Tree)) (path name : String) (way : ω) :
    Walk δ Tree := do
  match arrive s ⟨(← get).ancestors, way⟩ with
  | .again =>
    Walk.log [⟨.debug, s!"Not descending into {path}: it links back to an ancestor"⟩]
    return .branch name []
  | .unlisted text =>
    Walk.log [⟨.debug, s!"Treating {path} as empty: {text}"⟩]
    return .branch name []
  | .listed entries =>
    Walk.log (ignoredMessages extra path entries)
    Walk.enter (s.identity way)
    let children ← inside (visible extra entries)
    Walk.leave (s.identity way)
    Walk.log (Tree.repeatWarnings name children)
    return .branch name children

/-- The walk for an entry of the directory at a path, given the walk through directories. -/
def onward (walk : (path name : String) → (way : ω) → Walk δ Tree) (path : String)
    (e : Listed ω) : Walk δ Tree :=
  match e.way with
  | some on => walk (childPath path e.name) e.name on
  | none => pure (.leaf e.name)

/-- Walks through the directory at the end of a way; fails where more visits than the limit are
inside each other. -/
def directory (s : Surroundings ω δ) (extra : List String) :
    (limit : Nat) → (path name : String) → (way : ω) → Walk δ Tree
  | 0, _, _, _ => failure
  | limit + 1, path, name, way =>
    visit s extra (·.mapM (onward (directory s extra limit) path)) path name way

/-! ## The value of a visit -/

section Visit

variable {s : Surroundings ω δ} {extra : List String}
  {inside : List (Listed ω) → Walk δ (List Tree)} {v : Visit ω δ} {path name text : String}
  {entries : List (Listed ω)}

theorem returns_visit_again (h : arrive s v = .again) :
    Walk.Returns (visit s extra inside path name v.way) v.ancestors (.branch name []) := by
  refine Walk.Returns.get_bind fun messages => ?_
  simp only [h]
  exact (Walk.returns_log _ _).bind (Walk.returns_pure _ _)

theorem returns_visit_unlisted (h : arrive s v = .unlisted text) :
    Walk.Returns (visit s extra inside path name v.way) v.ancestors (.branch name []) := by
  refine Walk.Returns.get_bind fun messages => ?_
  simp only [h]
  exact (Walk.returns_log _ _).bind (Walk.returns_pure _ _)

theorem returns_visit_listed {children : List Tree} (h : arrive s v = .listed entries)
    (hinside : Walk.Returns (inside (visible extra entries)) (v.inside s) children) :
    Walk.Returns (visit s extra inside path name v.way) v.ancestors (.branch name children) := by
  refine Walk.Returns.get_bind fun messages => ?_
  simp only [h]
  exact (Walk.returns_log _ _).bind (Walk.Returns.inside _ hinside
    ((Walk.returns_log _ _).bind (Walk.returns_pure _ _)))

end Visit

/-! ## The tree in which a walk ends -/

variable {s : Surroundings ω δ} {extra : List String} {v : Visit ω δ} {name : String} {m n : Nat}
  {entries : List (Listed ω)} {t u : Tree}

/-- With that limit or a higher one, the walk ends in the tree, in the directories in which it
began; what was logged before and what path is shown do not matter. -/
def EndsIn (s : Surroundings ω δ) (extra : List String) (limit : Nat) (v : Visit ω δ)
    (name : String) (t : Tree) : Prop :=
  ∀ higher, limit ≤ higher → ∀ path,
    Walk.Returns (directory s extra higher path name v.way) v.ancestors t

/-- A name that is listed in those directories stands for the tree. -/
def EntryEndsIn (s : Surroundings ω δ) (extra : List String) (limit : Nat) (ancestors : List δ)
    (e : Listed ω) (t : Tree) : Prop :=
  match e.way with
  | some on => EndsIn s extra limit ⟨ancestors, on⟩ e.name t
  | none => t = .leaf e.name

theorem EntryEndsIn.returns_onward {ancestors : List δ} {e : Listed ω} {limit : Nat}
    (h : EntryEndsIn s extra n ancestors e t) (hlimit : n ≤ limit) (path : String) :
    Walk.Returns (onward (directory s extra limit) path e) ancestors t := by
  unfold EntryEndsIn at h
  unfold onward
  split at h
  · exact h limit hlimit (childPath path e.name)
  · rw [h]
    exact Walk.returns_pure _ _

theorem EndsIn.unique (ht : EndsIn s extra n v name t) (hu : EndsIn s extra m v name u) : t = u :=
  (ht (max n m) (Nat.le_max_left n m) "").unique (hu (max n m) (Nat.le_max_right n m) "")

/-- The tree of a directory has those of the entries that are walked. -/
theorem endsIn_shown {tree : Listed ω → Tree}
    (h : ∀ e ∈ shown s extra v, EntryEndsIn s extra n (v.inside s) e (tree e)) :
    EndsIn s extra (n + 1) v name (.branch name ((shown s extra v).map tree)) := by
  rintro (_ | limit) hlimit path
  · omega
  · unfold shown at h ⊢
    cases ha : arrive s v with
    | again => exact returns_visit_again ha
    | unlisted text => exact returns_visit_unlisted ha
    | listed entries =>
      rw [ha] at h
      exact returns_visit_listed ha
        (Walk.returns_mapM fun e he => (h e he).returns_onward (by omega) path)

/-! ## Walks that end -/

/-- From the visit on at most so many visits are inside each other. -/
def NestsAtMost (s : Surroundings ω δ) : Nat → Visit ω δ → Prop
  | 0, _ => False
  | n + 1, v => ∀ entries, arrive s v = .listed entries →
      ∀ e ∈ entries, ∀ on ∈ e.way, NestsAtMost s n ⟨v.inside s, on⟩

theorem exists_entryEndsIn {ancestors : List δ}
    (h : ∀ e ∈ entries, ∀ on ∈ e.way, ∃ t, EndsIn s extra n ⟨ancestors, on⟩ e.name t) :
    ∃ tree : Listed ω → Tree, ∀ e ∈ entries, EntryEndsIn s extra n ancestors e (tree e) := by
  have hentry : ∀ e, ∃ t, e ∈ entries → EntryEndsIn s extra n ancestors e t := by
    intro e
    by_cases he : e ∈ entries
    · unfold EntryEndsIn
      cases hon : e.way with
      | none => exact ⟨.leaf e.name, fun _ => rfl⟩
      | some on =>
        obtain ⟨t, ht⟩ := h e he on hon
        exact ⟨t, fun _ => ht⟩
    · exact ⟨.leaf e.name, fun hmem => absurd hmem he⟩
  exact Classical.axiomOfChoice hentry

theorem NestsAtMost.of_mem_shown {e : Listed ω} (h : NestsAtMost s (n + 1) v)
    (he : e ∈ shown s extra v) : ∀ on ∈ e.way, NestsAtMost s n ⟨v.inside s, on⟩ := by
  obtain ⟨entries, ha, hmem, -⟩ := mem_shown.1 he
  exact h entries ha e hmem

/-- Where visits nest only so deep, the walk ends in a tree. -/
theorem exists_endsIn (h : NestsAtMost s n v) (extra : List String) (name : String) :
    ∃ t, EndsIn s extra n v name t := by
  induction n generalizing v name with
  | zero => exact h.elim
  | succ n ih =>
    obtain ⟨tree, htree⟩ := exists_entryEndsIn fun e (he : e ∈ shown s extra v) on hon =>
      ih (h.of_mem_shown he on hon) e.name
    exact ⟨_, endsIn_shown htree⟩

/-- The tree of a directory has those in which the walks for its entries end. -/
theorem EndsIn.eq_branch_shown (ht : EndsIn s extra m v name t) (h : NestsAtMost s (n + 1) v) :
    ∃ tree : Listed ω → Tree, t = .branch name ((shown s extra v).map tree) ∧
      ∀ e ∈ shown s extra v, EntryEndsIn s extra n (v.inside s) e (tree e) := by
  obtain ⟨tree, htree⟩ := exists_entryEndsIn fun e (he : e ∈ shown s extra v) on hon =>
    exists_endsIn (h.of_mem_shown he on hon) extra e.name
  exact ⟨tree, ht.unique (endsIn_shown htree), htree⟩

/-- Each directory that can be listed is known, and is one of the places. -/
def KnownBy (s : Surroundings ω δ) (places : List δ) : Prop :=
  ∀ way entries, s.list way = .ok entries → ∃ d ∈ places, s.identity way = some d

/-- A walk goes deeper only by entering one more of the places. -/
theorem nestsAtMost_of_knownBy {places : List δ} (h : KnownBy s places)
    (hn : (places.filter (· ∉ v.ancestors)).length < n) : NestsAtMost s n v := by
  induction n generalizing v with
  | zero => omega
  | succ n ih =>
    intro entries ha e he on hon
    obtain ⟨hagain, hlist⟩ := arrive_eq_listed_iff.1 ha
    obtain ⟨d, hd, hid⟩ := h v.way entries hlist
    have hinside : places.filter (· ∉ v.inside s) =
        (places.filter (· ∉ v.ancestors)).filter (· ≠ d) := by
      simp [Visit.inside, hid, List.filter_filter]
    have hfewer : ((places.filter (· ∉ v.ancestors)).filter (· ≠ d)).length <
        (places.filter (· ∉ v.ancestors)).length :=
      List.length_filter_lt_length_iff_exists.2
        ⟨d, List.mem_filter.2 ⟨hd, by simpa using hagain d hid⟩, by simp⟩
    exact ih (by rw [hinside]; omega)

/-- A walk goes deeper only on longer ways, and nothing is listed at the end of the longest. -/
theorem nestsAtMost_of_size (size : ω → Nat) (most : Nat)
    (hmost : ∀ way entries, s.list way = .ok entries → size way < most)
    (hsize : ∀ way entries, s.list way = .ok entries → ∀ e ∈ entries, ∀ on ∈ e.way,
      size way < size on) (hn : most - size v.way < n) : NestsAtMost s n v := by
  induction n generalizing v with
  | zero => omega
  | succ n ih =>
    intro entries ha e he on hon
    obtain ⟨-, hlist⟩ := arrive_eq_listed_iff.1 ha
    have hway := hmost v.way entries hlist
    have hon := hsize v.way entries hlist e he on hon
    exact ih (by simp only; omega)

end Scan

end LayoutCheck
