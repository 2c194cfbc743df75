import LayoutCheck.Proofs.Declared

/-!
Writing a tree down as a nested document, and reading it again.

`encode` writes one, in which no key occurs twice (`distinct_encodeAll`). Under a key for the root
it is read as the tree that was written (`outcome_declare_encode`). Without that key two rules of
the top level stand in the way: a document with nothing but a directory of the root's name is taken
for that directory (`outcome_parseTree_of_wraps`), and one with a name or a type is taken for a node
that describes itself, which never has any content (`SelfDescribing.yields_parseTree_encodeAll`).
-/

namespace LayoutCheck

open Yaml (Entries Value)

/-! ## Documents for trees -/

/-- A tree that documents can declare: each name is accepted, and the descriptions are of the kind
that such documents can give. -/
structure Specification.Expressible (Describable : Tree → Prop) (t : Tree) : Prop where
  names : Declared t
  descriptions : t.All Describable

namespace Specification.Expressible

variable {Describable : Tree → Prop} {t c : Tree}

theorem of_mem_children (h : Expressible Describable t) (hc : c ∈ t.children) :
    Expressible Describable c :=
  ⟨h.names.of_mem_children hc, h.descriptions.of_mem_children hc⟩

theorem isEntryName (h : Expressible Describable t) : isEntryName t.name := h.names.here.1

end Specification.Expressible

namespace Specification.Nested

variable {t : Tree} {cs : List Tree} {location : String}

mutual

/-- The value that declares a tree, under its name. -/
def encode : Tree → Value
  | .file _ description => .string (description.getD "")
  | .directory _ _ children => .mapping (encodeAll children)

def encodeAll : List Tree → Entries
  | [] => []
  | c :: cs => (.string c.name, encode c) :: encodeAll cs

end

/-- A description that nested documents can give: only files have one, and it is not empty. -/
def Describable : Tree → Prop
  | .file _ description => description ≠ some ""
  | .directory _ description _ => description = none

theorem encode_of_directory (h : t.kind = .directory) :
    encode t = .mapping (encodeAll t.children) := by
  cases t with
  | file => cases h
  | directory => rw [encode, Tree.children_directory]

theorem encodeAll_eq_map (cs : List Tree) :
    encodeAll cs = cs.map fun c => (.string c.name, encode c) := by
  induction cs with
  | nil => rfl
  | cons c cs ih => rw [encodeAll, ih, List.map_cons]

/-- Siblings of distinct names make a mapping of distinct keys. -/
theorem distinct_encodeAll (h : (cs.map Tree.name).Nodup) : (encodeAll cs).Distinct := by
  rw [encodeAll_eq_map, Entries.Distinct, List.pairwise_map]
  refine (List.pairwise_map.mp h).imp ?_
  intro c d hcd
  simpa using hcd

theorem value?_encodeAll (cs : List Tree) (n : String) :
    (encodeAll cs).value? (.string n) = (cs.find? (·.name = n)).map encode := by
  rw [encodeAll_eq_map, Entries.value?, List.find?_map, Option.map_map]
  simp [Function.comp_def]

/-! ## Reading them -/

theorem outcome_declareAll_encodeAll (hnames : ∀ c ∈ cs, isEntryName c.name)
    (h : ∀ c ∈ cs, ∀ location, (declare location c.name (encode c)).outcome = .ok c) :
    (declareAll location (encodeAll cs)).outcome = .ok cs := by
  induction cs with
  | nil => rfl
  | cons c cs ih =>
    obtain ⟨hc, hcs⟩ := List.forall_mem_cons.mp h
    obtain ⟨hname, hnames⟩ := List.forall_mem_cons.mp hnames
    have hentry : (declareEntry location (.string c.name, encode c)).outcome = .ok c := by
      rw [declareEntry,
        Attempt.outcome_except_bind_of_ok (checkEntryName_of_isEntryName hname location)]
      exact hc _
    rw [encodeAll, declareAll, Attempt.outcome_bind_of_ok hentry,
      Attempt.outcome_bind_of_ok (ih hnames hcs), Attempt.outcome_pure]

/-- What is written for a tree is read as that tree. -/
theorem outcome_declare_encode (h : Expressible Describable t) (location : String) :
    (declare location t.name (encode t)).outcome = .ok t := by
  induction t using Tree.induction generalizing location with
  | file n d =>
    have hd : d ≠ some "" := h.descriptions.here
    rw [encode, declare, Attempt.outcome_pure]
    cases d with
    | none => rfl
    | some text =>
      have htext : text ≠ "" := fun he => hd (he ▸ rfl)
      simp [Tree.leaf, Tree.describe, htext]
  | directory n d cs ih =>
    obtain rfl : d = none := h.descriptions.here
    have hnodup : (cs.map Tree.name).Nodup := h.names.here.2
    have hall : (declareAll location (encodeAll cs)).outcome = .ok cs :=
      outcome_declareAll_encodeAll (fun c hc => (h.of_mem_children hc).isEntryName)
        fun c hc => ih c hc (h.of_mem_children hc)
    have hbranch : (Tree.branchLogged n cs).value = .directory n none cs := by
      rw [Tree.branchLogged, Tree.branch, Tree.arrange_of_nodup hnodup]
    rw [encode, declare, Attempt.outcome_bind_of_ok hall]
    exact congrArg Except.ok hbranch

/-- A directory with nothing in it but a directory of the root's name. -/
def Wraps (t : Tree) : Prop := ∃ s, t.children = [s] ∧ s.name = rootName ∧ s.kind = .directory

theorem wrapped?_root (entries : Entries) :
    wrapped? [(.string rootName, .mapping entries)] = some entries := if_pos rfl

theorem wrapped?_encodeAll (h : ¬ Wraps t) : wrapped? (encodeAll t.children) = none := by
  cases hcs : t.children with
  | nil => rfl
  | cons s ss =>
    cases ss with
    | cons => cases s <;> rfl
    | nil =>
      cases s with
      | file => rfl
      | directory n d cs =>
        have hn : n ≠ rootName := fun hn => h ⟨_, hcs, hn, rfl⟩
        simp [encodeAll, encode, wrapped?, hn]

theorem outcome_parseTree (entries : Entries) : (parseTree entries).outcome =
    (declare rootName rootName (.mapping ((wrapped? entries).getD entries))).outcome := by
  unfold parseTree
  cases wrapped? entries with
  | none => rfl
  | some inner => exact Attempt.outcome_bind_of_ok rfl

/-- What a directory of the root's name is written as is read as that directory. -/
theorem outcome_declare_root (h : Expressible Describable t) (hn : t.name = rootName)
    (hk : t.kind = .directory) :
    (declare rootName rootName (.mapping (encodeAll t.children))).outcome = .ok t := by
  rw [← encode_of_directory hk]
  simpa [hn] using outcome_declare_encode h rootName

theorem outcome_parseTree_root (h : Expressible Describable t) (hn : t.name = rootName)
    (hk : t.kind = .directory) :
    (parseTree [(.string rootName, encode t)]).outcome = .ok t := by
  rw [encode_of_directory hk, outcome_parseTree, wrapped?_root]
  exact outcome_declare_root h hn hk

/-- A directory that wraps another one is taken for it. -/
theorem outcome_parseTree_of_wraps (h : Expressible Describable t) (hw : Wraps t) :
    ∃ s ∈ t.children, (parseTree (encodeAll t.children)).outcome = .ok s := by
  obtain ⟨s, hs, hn, hk⟩ := hw
  have hmem : s ∈ t.children := hs ▸ List.mem_singleton_self s
  refine ⟨s, hmem, ?_⟩
  have hall : encodeAll t.children = [(.string rootName, encode s)] := by
    rw [hs, encodeAll, encodeAll, hn]
  rw [hall]
  exact outcome_parseTree_root (h.of_mem_children hmem) hn hk

/-- Without a key for the root, a directory is read as itself unless it wraps another one. -/
theorem outcome_parseTree_children_iff (h : Expressible Describable t) (hn : t.name = rootName)
    (hk : t.kind = .directory) :
    (parseTree (encodeAll t.children)).outcome = .ok t ↔ ¬ Wraps t := by
  constructor
  · intro ht hw
    obtain ⟨s, hs, hread⟩ := outcome_parseTree_of_wraps h hw
    obtain rfl : s = t := Except.ok.inj (hread.symm.trans ht)
    exact Tree.not_mem_children_self s hs
  · intro hw
    rw [outcome_parseTree, wrapped?_encodeAll hw]
    exact outcome_declare_root h hn hk

end Specification.Nested

/-! ## Documents that look as if they described themselves -/

namespace Specification.SelfDescribing

variable {place : Place} {entries : Entries} {cs : List Tree}

@[simp] theorem children_attach (h : Header) (t : Tree) : (h.attach t).children = t.children := by
  unfold Header.attach
  split <;> simp

/-- A nested document has no list, and so no content. -/
theorem yields_content_encodeAll (location : String) (cs : List Tree) :
    (content location (Nested.encodeAll cs)).Yields (· = []) := by
  refine yields_content rfl fun e he => ?_
  rw [Nested.encodeAll_eq_map] at he
  obtain ⟨c, _, rfl⟩ := List.mem_map.mp he
  cases c with
  | file =>
    rw [Nested.encode, contentValue]
    exact Attempt.yields_throw _
  | directory =>
    rw [Nested.encode, contentValue]
    exact Attempt.yields_throw _

theorem yields_node_childless (h : ∀ location, (content location entries).Yields (· = [])) :
    (node place (.mapping entries)).Yields (·.children = []) := by
  rw [node]
  refine Attempt.yields_bind fun header => ?_
  split
  · refine (h header.location).bind ?_
    rintro _ rfl
    refine (Attempt.yields_logged (P := (·.children = [])) rfl).bind ?_
    intro t ht
    exact Attempt.yields_pure (by simpa using ht)
  · unfold file
    split
    · exact Attempt.yields_bind fun _ => Attempt.yields_pure (by simp [Tree.leaf])
    · exact Attempt.yields_pure (by simp [Tree.leaf])

/-- Whatever a nested document describes as a node has no entries. -/
theorem yields_parseTree_encodeAll (cs : List Tree) :
    (parseTree (Nested.encodeAll cs)).Yields (·.children = []) := by
  unfold parseTree
  refine (yields_node_childless fun location => yields_content_encodeAll location cs).bind ?_
  intro t ht
  split
  · exact Attempt.yields_pure ht
  · exact Attempt.yields_throw _

end Specification.SelfDescribing

namespace Specification

open Nested

variable {t : Tree}

/-- The dialect of a nested document shows in the names of its entries. -/
theorem detect_encodeAll (t : Tree) : Dialect.detect (encodeAll t.children) =
    if t.hasChild "name" || t.hasChild "type" then .selfDescribing else .nested := by
  simp [Dialect.detect, SelfDescribing.field?, value?_encodeAll, Tree.hasChild, Tree.child?,
    Field.text]

theorem detect_ne_auto (entries : Entries) : Dialect.detect entries ≠ .auto := by
  simp only [Dialect.detect]
  split <;> decide

theorem outcome_auto (entries : Entries) : (Dialect.auto.parseTree entries).outcome =
    ((Dialect.detect entries).parseTree entries).outcome := by
  rw [Dialect.parseTree, Attempt.outcome_bind_of_ok rfl]
  cases hd : Dialect.detect entries with
  | auto => exact absurd hd (detect_ne_auto entries)
  | nested => rfl
  | selfDescribing => rfl

/--
A directory that is written under a key for the root is read as it is, by nesting and by detection.
Written without that key, it is read as it is by nesting unless it has nothing in it but a directory
of the root's name; and by detection if, besides, it has no entry of the name `name` or `type`.
-/
theorem nested_round_trip (h : Expressible Describable t) (hn : t.name = "src")
    (hk : t.kind = .directory) :
    (∀ dialect : Dialect, dialect = .nested ∨ dialect = .auto →
      (dialect.parseTree [(.string "src", encode t)]).outcome = .ok t) ∧
    ((Dialect.nested.parseTree (encodeAll t.children)).outcome = .ok t ↔ ¬ Wraps t) ∧
    ((Dialect.auto.parseTree (encodeAll t.children)).outcome = .ok t ↔
      ¬ Wraps t ∧ ¬ t.hasChild "name" ∧ ¬ t.hasChild "type") := by
  have hroot : (parseTree [(.string "src", encode t)]).outcome = .ok t :=
    outcome_parseTree_root h hn hk
  have hchildren := outcome_parseTree_children_iff h hn hk
  refine ⟨?_, hchildren, ?_⟩
  · have hdetect : Dialect.detect [(.string "src", encode t)] = .nested := by
      simp [Dialect.detect, SelfDescribing.field?, Entries.value?, Field.text]
    rintro dialect (rfl | rfl)
    · exact hroot
    · rw [outcome_auto, hdetect]
      exact hroot
  · rw [outcome_auto, detect_encodeAll]
    by_cases hfield : t.hasChild "name" || t.hasChild "type"
    · rw [if_pos hfield]
      -- the entry that is taken for a field is lost, since what is read then has no entries
      constructor
      · intro ht
        have hempty : t.children = [] := SelfDescribing.yields_parseTree_encodeAll t.children t ht
        simp [Tree.hasChild, Tree.child?, hempty] at hfield
      · rintro ⟨_, hname, htype⟩
        simp [hname, htype] at hfield
    · rw [if_neg hfield]
      have hfields : ¬ t.hasChild "name" ∧ ¬ t.hasChild "type" := by simpa using hfield
      rw [and_iff_left hfields]
      exact hchildren

/-- Under a key for the root, entries that are called like the root or like a field do not matter.
Without that key, the entry is taken for the field. -/
theorem nested_round_trip_field :
    let src := Tree.branch "src" [(Tree.leaf "main.rs").describe "entry point"]
    let t := Tree.branch "src" [src, .leaf "name"]
    let document : Entries :=
      [(.string "src", .mapping [(.string "main.rs", .string "entry point")]),
        (.string "name", .string "")]
    Expressible Describable t ∧
      (Dialect.auto.parseTree [(.string "src", .mapping document)]).outcome = .ok t ∧
      (Dialect.nested.parseTree document).outcome = .ok t ∧
      (Dialect.auto.parseTree document).outcome ≠ .ok t := by
  intro src t document
  have ht : Expressible Describable t := by
    constructor
    · show t.NamedBy (isEntryName ·)
      decide
    · show (Tree.directory "src" none [.directory "src" none [.file "main.rs" (some "entry point")],
        .file "name" none]).All Describable
      simp [Describable]
  obtain ⟨hkey, hnested, hauto⟩ := nested_round_trip ht rfl rfl
  have hwraps : ¬ Wraps t := by
    rintro ⟨s, hs, _⟩
    have htwo : t.children.length = 2 := rfl
    simp [hs] at htwo
  refine ⟨ht, hkey .auto (.inr rfl), hnested.mpr hwraps, fun h => ?_⟩
  exact (hauto.mp h).2.1 rfl

end Specification

end LayoutCheck
