import LayoutCheck.Scan.Directory

/-!
Walks end, and come back to where they began.

Links can lead back to any directory. Where each directory that can be listed is known and there
are finitely many, a walk nevertheless ends in a tree, with no more visits inside each other than
there are directories and one, and it ends in the ancestors in which it began
(`exists_balanced_walk`). So the walk for an entry begins in the same ancestors whatever was walked
before it.

`checkedDirectory` is the walk with a check of the ancestors wherever they have changed; that the
check changes nothing says that it never fails.
-/

namespace LayoutCheck

namespace Walk

variable {δ α β : Type} {walk walk' : Walk δ α} {ancestors : List δ} {a : α}

/-- A walk that fails if it begins or ends in ancestors that do not have the property. -/
def within (p : List δ → Bool) (walk : Walk δ α) : Walk δ α := do
  unless p (← get).ancestors do failure
  let a ← walk
  unless p (← get).ancestors do failure
  return a

def EqAt (ancestors : List δ) (walk walk' : Walk δ α) : Prop :=
  ∀ messages, walk.run ⟨ancestors, messages⟩ = walk'.run ⟨ancestors, messages⟩

theorem EqAt.trans {walk'' : Walk δ α} (h : EqAt ancestors walk walk')
    (h' : EqAt ancestors walk' walk'') : EqAt ancestors walk walk'' :=
  fun messages => (h messages).trans (h' messages)

theorem EqAt.returns (h : EqAt ancestors walk walk') (hwalk : walk'.Returns ancestors a) :
    walk.Returns ancestors a := by
  intro messages
  obtain ⟨later, hrun⟩ := hwalk messages
  exact ⟨later, (h messages).trans hrun⟩

/-- A check that succeeds changes nothing. -/
theorem within_eqAt {p : List δ → Bool} (hp : p ancestors) (h : walk.Returns ancestors a) :
    EqAt ancestors (within p walk) walk := by
  intro messages
  obtain ⟨later, hrun⟩ := h messages
  simp [within, hp, hrun]

theorem mapM_eqAt {f g : α → Walk δ β} {tree : α → β} {as : List α}
    (h : ∀ a ∈ as, EqAt ancestors (f a) (g a)) (hg : ∀ a ∈ as, (g a).Returns ancestors (tree a)) :
    EqAt ancestors (as.mapM f) (as.mapM g) := by
  intro messages
  induction as generalizing messages with
  | nil => rfl
  | cons a as ih =>
    obtain ⟨ha, has⟩ := List.forall_mem_cons.1 h
    obtain ⟨hga, hgas⟩ := List.forall_mem_cons.1 hg
    obtain ⟨before, hrun⟩ := hga messages
    rw [List.mapM_cons, List.mapM_cons, StateT.run_bind, StateT.run_bind, ha messages, hrun]
    simp [ih has hgas before]

end Walk

namespace Scan

variable {ω δ : Type}

theorem onward_eqAt {walk walk' : (path name : String) → (way : ω) → Walk δ Tree}
    {path : String} {ancestors : List δ} {e : Listed ω}
    (h : ∀ on ∈ e.way, ∀ below,
      Walk.EqAt ancestors (walk below e.name on) (walk' below e.name on)) :
    Walk.EqAt ancestors (onward walk path e) (onward walk' path e) := by
  unfold onward
  split
  · exact h _ ‹_› _
  · exact fun _ => rfl

variable [DecidableEq δ]

/-- `directory`, with a check of the ancestors at the beginning and the end of each visit and,
inside it, at the beginning and the end of the walk through the entries. -/
def checkedDirectory (p : List δ → Bool) (s : Surroundings ω δ) (extra : List String) :
    (limit : Nat) → (path name : String) → (way : ω) → Walk δ Tree
  | 0, _, _, _ => failure
  | limit + 1, path, name, way =>
    Walk.within p (visit s extra (fun entries =>
      Walk.within p (entries.mapM (onward (checkedDirectory p s extra limit) path))) path name way)

variable {s : Surroundings ω δ} {extra : List String} {v : Visit ω δ} {path name : String}
  {inside inside' : List (Listed ω) → Walk δ (List Tree)}

theorem visit_eqAt
    (h : ∀ entries, arrive s v = .listed entries →
      Walk.EqAt (v.inside s) (inside (visible extra entries))
        (inside' (visible extra entries))) :
    Walk.EqAt v.ancestors (visit s extra inside path name v.way)
      (visit s extra inside' path name v.way) := by
  intro messages
  cases ha : arrive s v with
  | again => simp [visit, ha]
  | unlisted text => simp [visit, ha]
  | listed entries =>
    have hin := h entries ha ((ignoredMessages extra path entries).reverse ++ messages)
    rw [Visit.inside] at hin
    simp [visit, ha, Walk.log, Walk.enter, hin]

/-- A directory that is gone into is not among the ancestors yet. -/
theorem nodup_inside {entries : List (Listed ω)} (hv : v.ancestors.Nodup)
    (ha : arrive s v = .listed entries) : (v.inside s).Nodup := by
  unfold Visit.inside
  obtain ⟨hnew, -⟩ := arrive_eq_listed_iff.1 ha
  cases hd : s.identity v.way with
  | none => simpa using hv
  | some d => simpa [hd] using ⟨hnew d hd, hv⟩

/-- Ancestors that are all different at the beginning stay so. -/
theorem checkedDirectory_eqAt {limit : Nat} (hnests : NestsAtMost s limit v)
    (hv : v.ancestors.Nodup) :
    Walk.EqAt v.ancestors (checkedDirectory (·.Nodup) s extra limit path name v.way)
      (directory s extra limit path name v.way) := by
  induction limit generalizing v path name with
  | zero => exact hnests.elim
  | succ limit ih =>
    obtain ⟨t, ht⟩ := exists_endsIn hnests extra name
    have hvisit : Walk.EqAt v.ancestors (visit s extra (fun entries => Walk.within (·.Nodup)
        (entries.mapM (onward (checkedDirectory (·.Nodup) s extra limit) path))) path name v.way)
        (directory s extra (limit + 1) path name v.way) := by
      refine visit_eqAt fun entries ha => ?_
      obtain ⟨tree, -, htree⟩ := ht.eq_branch_shown hnests
      have hinside := nodup_inside hv ha
      rw [shown_of_listed ha] at htree
      have hreturns : ∀ e ∈ visible extra entries,
          Walk.Returns (onward (directory s extra limit) path e) (v.inside s) (tree e) :=
        fun e he => (htree e he).returns_onward (Nat.le_refl _) path
      have hentries : Walk.EqAt (v.inside s)
          ((visible extra entries).mapM (onward (checkedDirectory (·.Nodup) s extra limit) path))
          ((visible extra entries).mapM (onward (directory s extra limit) path)) := by
        refine Walk.mapM_eqAt (fun e he => onward_eqAt fun on hon below => ?_) hreturns
        exact ih (hnests entries ha e (mem_visible.1 he).1 on hon) hinside
      exact (Walk.within_eqAt (by simpa using hinside)
        (hentries.returns (Walk.returns_mapM hreturns))).trans hentries
    exact (Walk.within_eqAt (by simpa using hv)
      (hvisit.returns (ht _ (Nat.le_refl _) path))).trans hvisit

/--
In surroundings with known places a walk ends in a tree and in the ancestors in which it began,
with no more visits inside each other than there are places and one. Its ancestors stay all
different. For each entry of a directory the tree is the one in which the walk ends that begins in
that directory with this entry.
-/
theorem exists_balanced_walk {places : List δ} (h : KnownBy s places) (extra : List String)
    (start : Visit ω δ) (name : String) :
    ∃ t, EndsIn s extra (places.length + 1) start name t ∧
      (start.ancestors.Nodup → ∀ limit, places.length < limit → ∀ path messages,
        (checkedDirectory (·.Nodup) s extra limit path name start.way).run
            ⟨start.ancestors, messages⟩ =
          (directory s extra limit path name start.way).run ⟨start.ancestors, messages⟩) ∧
      ∃ tree : Listed ω → Tree, t = .branch name ((shown s extra start).map tree) ∧
        ∀ e ∈ shown s extra start,
          EntryEndsIn s extra places.length (start.inside s) e (tree e) := by
  have hnests : ∀ limit, places.length < limit → NestsAtMost s limit start := fun limit hlimit =>
    nestsAtMost_of_knownBy h (Nat.lt_of_le_of_lt (List.length_filter_le _ _) hlimit)
  obtain ⟨t, ht⟩ := exists_endsIn (hnests _ (Nat.lt_succ_self _)) extra name
  refine ⟨t, ht, ?_, ht.eq_branch_shown (hnests _ (Nat.lt_succ_self _))⟩
  intro hstart limit hlimit path messages
  exact checkedDirectory_eqAt (hnests limit hlimit) hstart messages

/-- Two directories that link to themselves and to each other, one with a link to a third one that
cannot be listed. -/
def mutualLinks : Surroundings Nat Nat where
  identity := some
  list
    | 0 => .ok [⟨"twin", some 1⟩, ⟨"self", some 0⟩, ⟨"closed", some 2⟩]
    | 1 => .ok [⟨"self", some 1⟩, ⟨"twin", some 0⟩, ⟨"note", none⟩]
    | _ => .error "Permission denied (os error 13)"

theorem knownBy_mutualLinks : KnownBy mutualLinks [0, 1] := by
  intro way entries h
  match way with
  | 0 => exact ⟨0, by simp, rfl⟩
  | 1 => exact ⟨1, by simp, rfl⟩
  | _ + 2 => cases h

theorem exists_balanced_walk_mutualLinks :
    KnownBy mutualLinks [0, 1] ∧ ∃ tree : Listed Nat → Tree,
      EndsIn mutualLinks [] 3 ⟨[], 0⟩ "top"
        (.branch "top" [tree ⟨"closed", some 2⟩, .branch "self" [], tree ⟨"twin", some 1⟩]) ∧
      (checkedDirectory (·.Nodup) mutualLinks [] 3 "top" "top" 0).run ⟨[], []⟩ =
        (directory mutualLinks [] 3 "top" "top" 0).run ⟨[], []⟩ := by
  obtain ⟨t, ht, hchecked, hlisted⟩ := exists_balanced_walk knownBy_mutualLinks [] ⟨[], 0⟩ "top"
  have hshown : shown mutualLinks [] ⟨[], 0⟩ =
      [⟨"closed", some 2⟩, ⟨"self", some 0⟩, ⟨"twin", some 1⟩] := by
    have harrive : arrive mutualLinks ⟨[], 0⟩ =
        .listed [⟨"twin", some 1⟩, ⟨"self", some 0⟩, ⟨"closed", some 2⟩] := rfl
    rw [shown_of_listed harrive]
    simp [visible, isIgnored, ignoredNames, List.mergeSort]
  obtain ⟨tree, rfl, htree⟩ := hlisted
  rw [hshown] at ht htree
  have hself : tree ⟨"self", some 0⟩ = .branch "self" [] := by
    have hends : EndsIn mutualLinks [] 2 ⟨[0], 0⟩ "self" (tree ⟨"self", some 0⟩) :=
      htree ⟨"self", some 0⟩ (by simp)
    have hnests : NestsAtMost mutualLinks 2 ⟨[0], 0⟩ :=
      nestsAtMost_of_knownBy knownBy_mutualLinks (by decide)
    obtain ⟨_, hbranch, -⟩ := hends.eq_branch_shown hnests
    exact hbranch
  refine ⟨knownBy_mutualLinks, tree, ?_, hchecked .nil 3 (Nat.lt_succ_self _) "top" []⟩
  simpa [hself] using ht

end Scan

end LayoutCheck
