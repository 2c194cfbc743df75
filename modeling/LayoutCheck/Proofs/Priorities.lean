import LayoutCheck.Proofs.EntryPath
import LayoutCheck.Proofs.Selection

/-!
The order in which missing paths are chosen.

Each of the three stages of the choice takes the first of its candidates, as many as there is room
for (`Stage`): the roots of missing subtrees, the one with most missing paths below it first, then
marker files, then all others, each by path (`items_ofMissing_stages`). The candidates are described
by the texts of the paths alone (`IsSubtreeRoot`, `IsMarkerPath`).

The limit decides only where the choice ends. All missing paths have one order (`priorities`), and
the items are the first of them (`items_ofDistinct_eq_take`).
-/

namespace LayoutCheck.Remediation

variable {p q : String} {paths taken missing l : List String}

/-! ## Candidates -/

def Extends (q p : String) : Prop := ∃ rest, q = p ++ "/" ++ rest

theorem isBelow_iff_extends : isBelow q p ↔ Extends q p := by
  rw [isBelow_iff]
  constructor
  · rintro ⟨rest, h⟩
    refine ⟨String.ofList rest, String.toList_inj.mp ?_⟩
    simp [h]
  · rintro ⟨rest, rfl⟩
    exact ⟨rest.toList, by simp⟩

instance (q p : String) : Decidable (Extends q p) := decidable_of_iff _ isBelow_iff_extends

def pathsBelow (paths : List String) (p : String) : Nat := {q ∈ paths.toFinset | Extends q p}.card

/-- A path with others below it, of which the text before the last slash is not among the paths. -/
structure IsSubtreeRoot (paths : List String) (p : String) : Prop where
  mem : p ∈ paths
  topmost : ∀ above name, '/' ∉ name.toList → p = above ++ "/" ++ name → above ∉ paths
  extended : ∃ q ∈ paths, Extends q p

def IsMarkerPath (p : String) : Prop :=
  ∃ name ∈ ["mod.rs", "lib.rs", "main.rs", "__init__.py"],
    p = name ∨ ∃ above, p = above ++ "/" ++ name

/-- More paths below come first, then the smaller path. -/
def Outranks (paths : List String) (p q : String) : Prop :=
  pathsBelow paths q < pathsBelow paths p ∨ pathsBelow paths q = pathsBelow paths p ∧ p < q

theorem missingBelow_distinct (paths : List String) (p : String) :
    missingBelow (distinct paths) p = pathsBelow paths p := by
  have hset : ((distinct paths).filter (isBelow · p)).toFinset =
      {q ∈ paths.toFinset | Extends q p} := by
    ext q
    simp [mem_distinct, isBelow_iff_extends]
  rw [missingBelow, pathsBelow, ← hset, List.countP_eq_length_filter,
    List.toFinset_card_of_nodup ((nodup_distinct paths).filter _)]

theorem isTopmost_iff :
    isTopmost missing p ↔ ∀ above, parentPath? p = some above → above ∉ missing := by
  rw [isTopmost]
  cases parentPath? p <;> simp

theorem mem_subtreeRoots_distinct : p ∈ subtreeRoots (distinct paths) ↔ IsSubtreeRoot paths p := by
  have hbelow : 0 < missingBelow (distinct paths) p ↔ ∃ q ∈ paths, Extends q p := by
    simp [missingBelow, List.countP_pos_iff, mem_distinct, isBelow_iff_extends]
  rw [mem_subtreeRoots, mem_distinct, isTopmost_iff, hbelow]
  simp only [mem_distinct, parentPath?_eq_some_iff]
  constructor
  · rintro ⟨hmem, htop, hext⟩
    exact ⟨hmem, fun above name hn hp => htop above ⟨name, hn, hp⟩, hext⟩
  · rintro ⟨hmem, htop, hext⟩
    refine ⟨hmem, ?_, hext⟩
    rintro above ⟨name, hn, hp⟩
    exact htop above name hn hp

theorem isMarker_iff : isMarker p ↔ IsMarkerPath p := by
  have hslash : ∀ name ∈ markerNames, '/' ∉ name.toList := by decide
  rw [isMarker, List.contains_iff_mem, IsMarkerPath]
  constructor
  · intro h
    exact ⟨lastName p, h, (lastName_eq_iff (hslash _ h)).mp rfl⟩
  · rintro ⟨name, hmem, hp⟩
    rwa [(lastName_eq_iff (hslash name hmem)).mpr hp]

instance (paths : List String) (p : String) : Decidable (IsSubtreeRoot paths p) :=
  decidable_of_iff _ mem_subtreeRoots_distinct

instance (p : String) : Decidable (IsMarkerPath p) := decidable_of_iff _ isMarker_iff

theorem pairwise_outranks (paths : List String) :
    (subtreeRoots (distinct paths)).Pairwise (Outranks paths) := by
  have hnodup : (subtreeRoots (distinct paths)).Nodup :=
    (perm_subtreeRoots _).nodup_iff.mpr ((nodup_distinct paths).filter _)
  refine ((pairwise_subtreeRoots (distinct paths)).and hnodup).imp ?_
  rintro p q ⟨horder, hne⟩
  rw [rootOrder_iff, missingBelow_distinct, missingBelow_distinct] at horder
  exact horder.imp_right fun h => ⟨h.1, Std.lt_of_le_of_ne h.2 hne⟩

/-! ## Stages -/

/-- The first candidates in an order, as many as there are or as there is room for. -/
structure Stage (order : String → String → Prop) (candidates : Finset String) (room : Nat)
    (chosen : List String) : Prop where
  subset : ∀ p ∈ chosen, p ∈ candidates
  ordered : chosen.Pairwise order
  length_eq : chosen.length = min room candidates.card
  left_out : ∀ q ∈ candidates, q ∉ chosen → chosen.length = room ∧ ∀ p ∈ chosen, order p q

theorem Stage.take {order : String → String → Prop} {candidates : Finset String}
    (hnodup : l.Nodup) (hordered : l.Pairwise order) (hmem : ∀ p, p ∈ l ↔ p ∈ candidates)
    (room : Nat) : Stage order candidates room (l.take room) := by
  have hcard : candidates.card = l.length := by
    rw [← List.toFinset_card_of_nodup hnodup]
    congr 1
    ext p
    rw [List.mem_toFinset, hmem]
  refine ⟨fun p hp => (hmem p).mp (List.mem_of_mem_take hp),
    hordered.sublist (List.take_sublist _ _), hcard ▸ List.length_take, fun q hq hnot => ?_⟩
  rw [← hmem] at hq
  rw [← List.take_append_drop room l] at hordered hq
  have hdrop : q ∈ l.drop room := (List.mem_append.mp hq).resolve_left hnot
  refine ⟨?_, fun p hp => (List.pairwise_append.mp hordered).2.2 p hp q hdrop⟩
  have hmore := List.length_pos_of_mem hdrop
  rw [List.length_drop] at hmore
  rw [List.length_take]
  omega

/-- A stage takes the first paths of an ascending list that have not been taken. -/
theorem stage_takeNew {candidates : Finset String} (hl : l.Pairwise (· < ·))
    (hmem : ∀ p, p ∈ candidates ↔ p ∈ l ∧ p ∉ taken) (room : Nat) :
    Stage (· < ·) candidates room (takeNew taken l room) := by
  have hnew := hl.filter (fun p => !taken.contains p)
  exact Stage.take (hnew.imp fun hlt => Std.ne_of_lt hlt) hnew (fun p => by simp [hmem]) room

/--
The items are chosen in three stages. First come at most three roots of missing subtrees: those with
most missing paths below them, and of equal ones the smaller path. Then come at most five of the
marker files that are left, and then any other paths, both in ascending order. A stage ends with its
last candidate or when there is no more room, so what it leaves out comes after all that it chose.
-/
theorem items_ofMissing_stages (paths : List String) (limit : Nat) :
    ∃ roots markers others, (ofMissing paths limit).items = roots ++ markers ++ others ∧
      Stage (Outranks paths) {p ∈ paths.toFinset | IsSubtreeRoot paths p} (min 3 limit) roots ∧
      Stage (· < ·) {p ∈ paths.toFinset | p ∉ roots ∧ IsMarkerPath p} (min 5 (limit - roots.length))
        markers ∧
      Stage (· < ·) {p ∈ paths.toFinset | p ∉ roots ∧ p ∉ markers}
        (limit - roots.length - markers.length) others := by
  have hascending := ascending_distinct paths
  refine ⟨(subtreeRoots (distinct paths)).take (min maxSubtreeRoots limit), _, _, rfl, ?_, ?_, ?_⟩
  · refine Stage.take ?_ (pairwise_outranks paths) (fun p => ?_) _
    · exact (perm_subtreeRoots _).nodup_iff.mpr ((nodup_distinct paths).filter _)
    · rw [mem_subtreeRoots_distinct, Finset.mem_filter, List.mem_toFinset]
      exact ⟨fun h => ⟨h.mem, h⟩, fun h => h.2⟩
  · refine stage_takeNew (hascending.filter _) (fun p => ?_) _
    rw [Finset.mem_filter, List.mem_toFinset, List.mem_filter, mem_distinct, isMarker_iff]
    tauto
  · rw [Nat.sub_sub, ← List.length_append]
    refine stage_takeNew hascending (fun p => ?_) _
    rw [Finset.mem_filter, List.mem_toFinset, mem_distinct, List.mem_append, not_or]

/-! ## One order for every limit -/

def priorities (missing : List String) : List String :=
  let roots := (subtreeRoots missing).take maxSubtreeRoots
  let first := roots ++ takeNew roots (missing.filter isMarker) maxMarkers
  first ++ missing.filter (fun p => !first.contains p)

/-- A limit that cuts off a stage leaves no room for what follows it. -/
theorem take_append_takeNew (taken candidates : List String) (cap limit : Nat) :
    (taken ++ takeNew taken candidates cap).take limit = taken.take limit ++
      takeNew (taken.take limit) candidates (min cap (limit - (taken.take limit).length)) := by
  rcases Nat.le_total limit taken.length with hle | hle
  · have hroom : limit - (taken.take limit).length = 0 := by
      rw [List.length_take]
      omega
    rw [hroom, Nat.min_zero, takeNew, takeNew, List.take_zero, List.append_nil,
      List.take_append_of_le_length hle]
  · rw [List.take_of_length_le hle, List.take_append, List.take_of_length_le hle, takeNew, takeNew,
      List.take_take, Nat.min_comm]

theorem take_append_new (taken candidates : List String) (limit : Nat) :
    (taken ++ candidates.filter (fun p => !taken.contains p)).take limit = taken.take limit ++
      takeNew (taken.take limit) candidates (limit - (taken.take limit).length) := by
  have hall : takeNew taken candidates candidates.length =
      candidates.filter (fun p => !taken.contains p) :=
    List.take_of_length_le (List.length_filter_le _ _)
  have hroom (some : List String) (room : Nat) :
      takeNew some candidates (min candidates.length room) = takeNew some candidates room := by
    have hle := List.length_filter_le (fun p => !some.contains p) candidates
    rw [takeNew, takeNew, List.take_eq_take_iff]
    omega
  rw [← hall, take_append_takeNew, hroom]

/-- The limit says how many of the paths are taken, and changes nothing else. -/
theorem items_ofDistinct_eq_take (missing : List String) (limit : Nat) :
    (ofDistinct missing limit).items = (priorities missing).take limit := by
  have hroots : (subtreeRoots missing).take (min maxSubtreeRoots limit) =
      ((subtreeRoots missing).take maxSubtreeRoots).take limit := by
    rw [List.take_take, Nat.min_comm]
  rw [priorities, take_append_new, take_append_takeNew, ← hroots]
  rfl

theorem length_priorities (hnodup : missing.Nodup) :
    (priorities missing).length = missing.length := by
  have hroots : Choice missing (maxSubtreeRoots + maxMarkers)
      ((subtreeRoots missing).take maxSubtreeRoots) :=
    choice_take_subtreeRoots hnodup (Nat.le_add_right _ _)
  have hroom : maxMarkers ≤
      maxSubtreeRoots + maxMarkers - ((subtreeRoots missing).take maxSubtreeRoots).length := by
    have hlength := List.length_take_le maxSubtreeRoots (subtreeRoots missing)
    omega
  have hfirst := hroots.append_takeNew (hnodup.filter isMarker) List.filter_sublist.subset hroom
  exact (hfirst.perm_append_new hnodup).length_eq

/--
The items for a smaller limit are the first of those for a larger one. A limit that all of the
missing paths fit into makes no difference, so they are also the first of the unlimited items.
-/
theorem items_ofMissing_prefix (paths : List String) {small large : Nat} (h : small ≤ large) :
    (ofMissing paths small).items <+: (ofMissing paths large).items ∧
      (ofMissing paths small).items = (ofMissing paths large).items.take small ∧
      ∀ unlimited, paths.toFinset.card ≤ unlimited →
        (ofMissing paths small).items = (ofMissing paths unlimited).items.take small := by
  have hitems (limit : Nat) : (ofMissing paths limit).items =
      (priorities (distinct paths)).take limit := items_ofDistinct_eq_take _ limit
  have htake : (ofMissing paths small).items = (ofMissing paths large).items.take small := by
    rw [hitems, hitems, List.take_take, Nat.min_eq_left h]
  refine ⟨htake ▸ List.take_prefix _ _, htake, fun unlimited hcount => ?_⟩
  rw [← length_distinct, ← length_priorities (nodup_distinct paths)] at hcount
  rw [hitems, hitems, List.take_of_length_le hcount]

/-- The smaller limit falls among the marker files, and the larger one behind them. -/
theorem items_ofMissing_prefix_markers :
    let paths := ["b.rs", "src/net", "a.rs", "src/net/mod.rs", "lib.rs", "src/net"]
    2 ≤ 4 ∧ (ofMissing paths 4).items = ["src/net", "lib.rs", "src/net/mod.rs", "a.rs"] ∧
      (ofMissing paths 2).items = ["src/net", "lib.rs"] := by
  intro paths
  have hlarge : (ofMissing paths 4).items = ["src/net", "lib.rs", "src/net/mod.rs", "a.rs"] := by
    cbv
  obtain ⟨_, htake, _⟩ := items_ofMissing_prefix paths (show (2 : Nat) ≤ 4 by decide)
  exact ⟨by decide, hlarge, htake.trans (by rw [hlarge]; rfl)⟩

end LayoutCheck.Remediation
