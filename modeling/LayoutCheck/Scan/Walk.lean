import LayoutCheck.Log

/-!
Computations that know which directories they are in, log messages, and may fail.

`Returns` says that such a walk succeeds and comes back to where it began; there is one lemma about
it for each way of combining walks.
-/

namespace LayoutCheck

/-- How far a walk has come: the directories that it is in and the messages that it has logged. -/
structure Course (δ : Type) where
  /-- the innermost directory first -/
  ancestors : List δ
  /-- the newest message first -/
  messages : List Message

abbrev Walk (δ α : Type) := StateT (Course δ) Option α

namespace Walk

variable {δ α β : Type}

def log (messages : List Message) : Walk δ Unit :=
  modify fun c => { c with messages := messages.reverse ++ c.messages }

/-- Goes into a directory, unless it is not known which one it is. -/
def enter (directory : Option δ) : Walk δ Unit :=
  modify fun c => { c with ancestors := directory.toList ++ c.ancestors }

/-- Comes back out of a directory that was gone into. -/
def leave (directory : Option δ) : Walk δ Unit :=
  modify fun c => { c with ancestors := c.ancestors.drop directory.toList.length }

/-- What comes out of a walk that begins in no directory. -/
def finish (walk : Walk δ α) : Option (Logged α) :=
  (walk.run ⟨[], []⟩).map fun (a, c) => ⟨a, c.messages.reverse⟩

/-- Whatever was logged before, the walk has that value, and ends in the directories in which it
began. -/
def Returns (walk : Walk δ α) (ancestors : List δ) (a : α) : Prop :=
  ∀ messages, ∃ later, walk.run ⟨ancestors, messages⟩ = some (a, ⟨ancestors, later⟩)

variable {walk : Walk δ α} {ancestors : List δ} {a b : α}

theorem returns_pure (ancestors : List δ) (a : α) : (pure a : Walk δ α).Returns ancestors a :=
  fun messages => ⟨messages, rfl⟩

theorem returns_log (messages : List Message) (ancestors : List δ) :
    (log messages).Returns ancestors () :=
  fun before => ⟨messages.reverse ++ before, rfl⟩

theorem Returns.bind {f : α → Walk δ β} {b : β} (h : walk.Returns ancestors a)
    (hf : (f a).Returns ancestors b) : (walk >>= f).Returns ancestors b := by
  intro messages
  obtain ⟨before, hwalk⟩ := h messages
  obtain ⟨later, hlater⟩ := hf before
  exact ⟨later, by rw [StateT.run_bind, hwalk]; exact hlater⟩

theorem Returns.get_bind {f : Course δ → Walk δ β} {b : β}
    (h : ∀ messages, (f ⟨ancestors, messages⟩).Returns ancestors b) :
    (get >>= f).Returns ancestors b := by
  intro messages
  exact h messages messages

/-- What is done inside a directory is followed by coming back out of it. -/
theorem Returns.inside {f : α → Walk δ β} {b : β} (directory : Option δ)
    (h : walk.Returns (directory.toList ++ ancestors) a) (hf : (f a).Returns ancestors b) :
    (do enter directory; let a ← walk; leave directory; f a).Returns ancestors b := by
  intro messages
  obtain ⟨before, hwalk⟩ := h messages
  obtain ⟨later, hlater⟩ := hf before
  refine ⟨later, ?_⟩
  have henter : (enter directory).run ⟨ancestors, messages⟩ =
      some ((), ⟨directory.toList ++ ancestors, messages⟩) := rfl
  have hleave : (leave directory).run ⟨directory.toList ++ ancestors, before⟩ =
      some ((), ⟨ancestors, before⟩) := by
    simp [leave]
  rw [StateT.run_bind, henter, Option.bind_eq_bind, Option.bind_some, StateT.run_bind, hwalk,
    Option.bind_eq_bind, Option.bind_some, StateT.run_bind, hleave]
  exact hlater

theorem returns_mapM {f : α → Walk δ β} {g : α → β} {as : List α}
    (h : ∀ a ∈ as, (f a).Returns ancestors (g a)) :
    (as.mapM f).Returns ancestors (as.map g) := by
  induction as with
  | nil => exact returns_pure ancestors []
  | cons a as ih =>
    obtain ⟨ha, has⟩ := List.forall_mem_cons.1 h
    rw [List.mapM_cons]
    exact ha.bind ((ih has).bind (returns_pure ancestors _))

/-- A walk has one value at most. -/
theorem Returns.unique (ha : walk.Returns ancestors a) (hb : walk.Returns ancestors b) :
    a = b := by
  obtain ⟨_, ha⟩ := ha []
  obtain ⟨_, hb⟩ := hb []
  exact (Prod.mk.inj (Option.some.inj (ha.symm.trans hb))).1

theorem Returns.exists_finish (h : walk.Returns [] a) :
    ∃ messages, walk.finish = some ⟨a, messages⟩ := by
  obtain ⟨later, hwalk⟩ := h []
  exact ⟨later.reverse, by rw [finish, hwalk]; rfl⟩

end Walk

end LayoutCheck
