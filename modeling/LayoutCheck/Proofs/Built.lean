import LayoutCheck.Proofs.NestedGrammar

/-!
What every tree keeps to, however it was built, and what else a declared one keeps to.

Building with `leaf`, `branch` and `describe` keeps a tree consistent (`Built.all_consistent`), and
documents declare trees that are built like this. A branch is put together without a warning exactly
if no name occurs twice (`repeatWarnings_eq_nil_iff`), so a nested document of distinct keys is read
without any (`Nested.logs_parseTree`), and all that come from a text are (`logs_parse_nested`).
-/

namespace LayoutCheck

open Yaml (Entries Value)

namespace Attempt

variable {ε α β : Type} {P : Message → Prop} {Q : α → Prop}

def Logs (x : Attempt ε α) (P : Message → Prop) : Prop := ∀ message ∈ x.messages, P message

theorem logs_pure (a : α) : (pure a : Attempt ε α).Logs P := by
  intro message hm
  simp at hm

theorem logs_throw (e : ε) : (throw e : Attempt ε α).Logs P := by
  intro message hm
  simp at hm

theorem logs_except (x : Except ε α) : (liftM x : Attempt ε α).Logs P := by
  intro message hm
  cases x <;> cases hm

theorem logs_logged {x : Logged α} (h : ∀ message ∈ x.messages, P message) :
    (liftM x : Attempt ε α).Logs P := by
  intro message hm
  have hlift : (liftM x : Attempt ε α).messages = x.messages := messages_lift x
  exact h message (hlift ▸ hm)

/-- What comes second may rely on what the first yields. -/
theorem Logs.bind {x : Attempt ε α} {f : α → Attempt ε β} (hx : x.Logs P) (hy : x.Yields Q)
    (hf : ∀ a, Q a → (f a).Logs P) : (x >>= f).Logs P := by
  intro message hm
  rw [messages_bind] at hm
  split at hm
  · rename_i a ha
    rcases List.mem_append.mp hm with hm | hm
    · exact hx message hm
    · exact hf a (hy a ha) message hm
  · exact hx message hm

theorem logs_bind {x : Attempt ε α} {f : α → Attempt ε β} (hx : x.Logs P)
    (hf : ∀ a, (f a).Logs P) : (x >>= f).Logs P :=
  hx.bind (Q := fun _ => True) (fun _ _ => trivial) fun a _ => hf a

end Attempt

/-! ## Trees that were built -/

namespace Tree

variable {t : Tree} {n : String} {cs entries : List Tree} {seen : List String}

/-- The tree was put together from files, directories and descriptions. -/
inductive Built : Tree → Prop where
  | leaf (name : String) : Built (.leaf name)
  | branch (name : String) {entries : List Tree} : (∀ c ∈ entries, Built c) →
      Built (.branch name entries)
  | describe {t : Tree} (text : String) : Built t → Built (t.describe text)

structure Consistent (t : Tree) : Prop where
  childless : t.kind = .file → t.children = []
  distinct : t.childNames.Nodup
  found : ∀ c ∈ t.children, t.child? c.name = some c ∧ t.hasChild c.name
  described : t.description ≠ some ""

theorem consistent_of_nodup (hnodup : t.childNames.Nodup) (hd : t.description ≠ some "") :
    t.Consistent where
  childless := by cases t <;> simp
  distinct := hnodup
  found c hc := by
    have hfound : t.child? c.name = some c := child?_of_mem hnodup hc
    exact ⟨hfound, by rw [hasChild, hfound, Option.isSome_some]⟩
  described := hd

theorem description_describe (t : Tree) (text : String) :
    (t.describe text).description = if text = "" then none else some text := by
  cases t <;> rfl

theorem consistent_leaf (n : String) : (leaf n).Consistent :=
  consistent_of_nodup List.nodup_nil nofun

theorem consistent_branch (n : String) (entries : List Tree) : (branch n entries).Consistent :=
  consistent_of_nodup (nodup_names_arrange entries) nofun

theorem Consistent.describe (h : t.Consistent) (text : String) : (t.describe text).Consistent := by
  refine consistent_of_nodup ?_ ?_
  · rw [childNames, children_describe]
    exact h.distinct
  · rw [description_describe]
    split
    · simp
    · rename_i htext
      exact fun he => htext (Option.some.inj he)

/-- Building keeps every entry consistent. -/
theorem Built.all_consistent (h : t.Built) : t.All Consistent := by
  induction h with
  | leaf name => exact .file (consistent_leaf name)
  | @branch name entries _ ih =>
    exact .directory (consistent_branch name entries) fun c hc => ih c (mem_of_mem_arrange hc)
  | describe text _ ih =>
    refine all_iff.mpr ⟨ih.here.describe text, ?_⟩
    rw [children_describe]
    exact fun c => ih.of_mem_children

theorem repeatWarnings_go_eq_nil_iff (directory : String) :
    repeatWarnings.go directory seen entries = [] ↔
      (entries.map name).Nodup ∧ ∀ e ∈ entries, e.name ∉ seen := by
  induction entries generalizing seen with
  | nil => simp [repeatWarnings.go]
  | cons e es ih =>
    rw [repeatWarnings.go, List.map_cons, List.nodup_cons, List.forall_mem_cons]
    split
    · rename_i hmem
      simp [hmem]
    · rename_i hmem
      have hsplit : (∀ d ∈ es, d.name ∉ e.name :: seen) ↔
          e.name ∉ es.map name ∧ ∀ d ∈ es, d.name ∉ seen := by
        simp [forall_and, eq_comm]
      rw [ih, hsplit]
      tauto

/-- Every entry is kept without a warning exactly if their names are distinct. -/
theorem repeatWarnings_eq_nil_iff (directory : String) :
    repeatWarnings directory entries = [] ↔ (entries.map name).Nodup := by
  rw [repeatWarnings, repeatWarnings_go_eq_nil_iff]
  simp

end Tree

/-! ## Trees that are declared -/

namespace Specification

open Attempt
open Yaml.Value (keysDistinct_mapping)

variable {location name : String} {m entries : Entries} {v : Value} {dialect : Dialect}

theorem inherited_built : Inherited Tree.Built where
  leaf _ := .leaf _
  described text _ := .describe text (.leaf _)
  branch _ hcs := .branch _ hcs

def Undescribed (t : Tree) : Prop := t.All fun s => s.kind = .directory → s.description = none

theorem inherited_undescribed : Inherited Undescribed where
  leaf _ := .file nofun
  described _ _ := .file nofun
  branch _ hcs := .directory (fun _ => rfl) fun c hc => hcs c (Tree.mem_of_mem_arrange hc)

namespace Nested

theorem yields_declare_mapping :
    (declare location name (.mapping entries)).Yields fun t =>
      t.name = name ∧ t.kind = .directory := by
  rw [declare]
  exact yields_bind fun _ => yields_logged ⟨rfl, rfl⟩

theorem yields_parseTree_root (m : Entries) :
    (parseTree m).Yields fun t => t.name = rootName ∧ t.kind = .directory := by
  unfold Yields
  rw [outcome_parseTree]
  exact yields_declare_mapping

def Minor (message : Message) : Prop := message.severity = .debug

theorem logs_debug {ε : Type} (text : String) :
    (liftM (Log.debug text) : Attempt ε Unit).Logs Minor :=
  logs_logged fun message hm => by rw [List.mem_singleton.mp hm]; rfl

theorem logs_plainFile : (declare.plainFile location name).Logs Minor :=
  logs_bind (logs_debug _) fun _ => logs_pure _

theorem logs_declareEntry {e : Value × Value}
    (h : ∀ location name, (declare location name e.2).Logs Minor) :
    (declareEntry location e).Logs Minor := by
  obtain ⟨key, value⟩ := e
  unfold declareEntry
  split
  · exact logs_bind (logs_except _) fun _ => h _ _
  · exact logs_throw _

theorem logs_declareAll (h : ∀ e ∈ entries, ∀ location name,
      (declare location name e.2).Logs Minor) : (declareAll location entries).Logs Minor := by
  induction entries with
  | nil =>
    rw [declareAll]
    exact logs_pure _
  | cons e es ih =>
    obtain ⟨he, hes⟩ := List.forall_mem_cons.mp h
    rw [declareAll]
    refine logs_bind (logs_declareEntry he) fun t => ?_
    exact logs_bind (ih hes) fun ts => logs_pure _

/-- Values of distinct keys are read without a warning. -/
theorem logs_declare (hv : v.KeysDistinct) (location name : String) :
    (declare location name v).Logs Minor := by
  induction v using Value.induction generalizing location name with
  | scalar s =>
    unfold declare
    split
    · exact logs_pure _
    · exact logs_plainFile
  | sequence items =>
    rw [declare]
    exact logs_plainFile
  | tagged handle suffix v =>
    rw [declare]
    exact logs_plainFile
  | mapping entries ih =>
    obtain ⟨hdistinct, hvalues⟩ := keysDistinct_mapping.mp hv
    have hread : (declareAll location entries).Logs Minor :=
      logs_declareAll fun e he => ih e he (hvalues e he)
    rw [declare]
    refine hread.bind (yields_declareAll_mirrors fun e he =>
      yields_declare_mirrors (hvalues e he)) ?_
    rintro cs ⟨hkeys, _⟩
    have hquiet : Tree.repeatWarnings name cs = [] :=
      (Tree.repeatWarnings_eq_nil_iff name).mpr (nodup_names_of_keys hdistinct hkeys)
    refine logs_logged fun message hm => ?_
    simp [Tree.branchLogged, hquiet] at hm

theorem keysDistinct_wrapped {inner : Entries} (h : wrapped? m = some inner)
    (hm : (Value.mapping m).KeysDistinct) : (Value.mapping inner).KeysDistinct := by
  obtain rfl := wrapped?_eq_some_iff.mp h
  exact (Body.lone inner).keysDistinct hm

theorem logs_parseTree (hm : (Value.mapping m).KeysDistinct) : (parseTree m).Logs Minor := by
  unfold parseTree
  split
  · rename_i inner hinner
    exact logs_bind (logs_debug _) fun _ => logs_declare (keysDistinct_wrapped hinner hm) _ _
  · exact logs_declare hm _ _

end Nested

theorem SelfDescribing.yields_parseTree_directory (m : Entries) :
    (SelfDescribing.parseTree m).Yields (·.kind = .directory) := by
  unfold SelfDescribing.parseTree
  refine yields_bind fun root => ?_
  split
  · rename_i hroot
    exact yields_pure (by simpa [Tree.isDirectory] using hroot)
  · exact yields_throw _

/-- The document is read as a nested one, by choice or by detection. -/
def Dialect.ReadsNested (dialect : Dialect) (m : Entries) : Prop :=
  dialect = .nested ∨ dialect = .auto ∧ Dialect.detect m = .nested

theorem Dialect.yields_directory (dialect : Dialect) (m : Entries) :
    (dialect.parseTree m).Yields (·.kind = .directory) := by
  have hnested : (Nested.parseTree m).Yields (·.kind = .directory) :=
    fun t ht => (Nested.yields_parseTree_root m t ht).2
  exact dialect.yields_of_both hnested (SelfDescribing.yields_parseTree_directory m)

theorem Dialect.ReadsNested.outcome (h : dialect.ReadsNested m) :
    (dialect.parseTree m).outcome = (Nested.parseTree m).outcome := by
  obtain rfl | ⟨rfl, hdetect⟩ := h
  · rfl
  · rw [outcome_auto, hdetect]
    rfl

theorem Dialect.ReadsNested.logs (h : dialect.ReadsNested m)
    (hm : (Value.mapping m).KeysDistinct) : (dialect.parseTree m).Logs Nested.Minor := by
  obtain rfl | ⟨rfl, hdetect⟩ := h
  · exact Nested.logs_parseTree hm
  · refine logs_bind (Nested.logs_debug _) fun _ => ?_
    rw [hdetect]
    exact Nested.logs_parseTree hm

/-- The mapping that a text gives has distinct keys. -/
theorem keysDistinct_of_topLevel {text : String} {values : List Value}
    (hvalues : documents text = .ok values) (hm : topLevel values = .ok m) :
    (Value.mapping m).KeysDistinct := by
  have hread : Yaml.readDocuments text = .ok values := by
    cases h : Yaml.readDocuments text with
    | error e => simp [documents, h, Except.mapError] at hvalues
    | ok read => simpa [documents, h, Except.mapError] using hvalues
  unfold topLevel at hm
  split at hm
  · cases hm
  · obtain rfl := Except.ok.inj hm
    exact Yaml.keysDistinct_of_readDocuments hread _ (List.mem_cons_self ..)
  · cases hm

/-- No text is read as a nested document with a warning. -/
theorem logs_parse_nested (text : String) : (parse .nested text).Logs Nested.Minor := by
  refine Logs.bind (logs_except _) (yields_except fun _ => id) fun values hvalues => ?_
  refine Logs.bind (logs_except _) (yields_except fun _ => id) fun m hm => ?_
  exact Nested.logs_parseTree (keysDistinct_of_topLevel hvalues hm)

theorem Declared.all_names {t : Tree} (h : Declared t) :
    t.All fun s => s.name ≠ "" ∧ s.name ≠ "." ∧ s.name ≠ ".." ∧ '/' ∉ s.name.toList :=
  Tree.All.imp (fun s hs => (isEntryName_iff s.name).mp hs.1) h

/--
However a tree is built, no file in it has entries, siblings have distinct names and are found by
them, and no description is empty. What a document declares is built in that way. It is a directory,
and each name in it can be that of an entry. A nested document calls it `src` and describes no
directory, and if its keys are distinct it is read without a warning.
-/
theorem tree_invariant :
    (∀ t : Tree, t.Built → t.All Tree.Consistent) ∧
    ∀ (dialect : Dialect) (m : Entries),
      (∀ t, (dialect.parseTree m).outcome = .ok t →
        t.Built ∧ t.kind = .directory ∧
        t.All (fun s => s.name ≠ "" ∧ s.name ≠ "." ∧ s.name ≠ ".." ∧ '/' ∉ s.name.toList) ∧
        (dialect.ReadsNested m →
          t.name = "src" ∧ t.All fun s => s.kind = .directory → s.description = none)) ∧
      (dialect.ReadsNested m → (Value.mapping m).KeysDistinct →
        ∀ message ∈ (dialect.parseTree m).messages, message.severity ≠ .warn) := by
  refine ⟨fun t => Tree.Built.all_consistent, fun dialect m => ⟨fun t ht => ?_, ?_⟩⟩
  · have hbuilt : t.Built :=
      dialect.yields_parseTree inherited_built (fun _ text => .describe text) m t ht
    have hnames := Declared.all_names (dialect.yields_declared m t ht)
    refine ⟨hbuilt, dialect.yields_directory m t ht, hnames, fun hnested => ?_⟩
    rw [hnested.outcome] at ht
    exact ⟨(Nested.yields_parseTree_root m t ht).1,
      Nested.yields_parseTree inherited_undescribed m t ht⟩
  · intro hnested hm message hmem hwarn
    have hminor : message.severity = .debug := hnested.logs hm message hmem
    rw [hminor] at hwarn
    cases hwarn

theorem tree_invariant_sample :
    let t := (Tree.branch "src" [.leaf "a.rs", (Tree.leaf "a.rs").describe ""]).describe "twice"
    let document : Entries :=
      [(.string "lib", .mapping [(.string "mod.rs", .string "module")]),
        (.string "main.rs", .string "")]
    let s := Tree.branch "src"
      [.branch "lib" [(Tree.leaf "mod.rs").describe "module"], .leaf "main.rs"]
    t.Built ∧ t.All Tree.Consistent ∧ Dialect.auto.ReadsNested document ∧
      (Value.mapping document).KeysDistinct ∧
      (Dialect.auto.parseTree document).outcome = .ok s ∧ s.Built ∧ s.name = "src" ∧
      ∀ message ∈ (Dialect.auto.parseTree document).messages, message.severity ≠ .warn := by
  intro t document s
  have ht : t.Built :=
    .describe "twice" (.branch "src" (by simp [Tree.Built.leaf, Tree.Built.describe]))
  have hnested : Dialect.auto.ReadsNested document := by
    refine .inr ⟨rfl, ?_⟩
    simp [document, Dialect.detect, SelfDescribing.field?, Entries.value?, Field.text]
  have hkeys : (Value.mapping document).KeysDistinct := by simp [document, Entries.Distinct]
  have hs : (Dialect.auto.parseTree document).outcome = .ok s := hnested.outcome.trans (by rfl)
  obtain ⟨hconsistent, hdocuments⟩ := tree_invariant
  obtain ⟨hread, hquiet⟩ := hdocuments .auto document
  obtain ⟨hbuilt, _, _, hroot⟩ := hread s hs
  exact ⟨ht, hconsistent t ht, hnested, hkeys, hs, hbuilt, (hroot hnested).1, hquiet hnested hkeys⟩

end Specification

end LayoutCheck
