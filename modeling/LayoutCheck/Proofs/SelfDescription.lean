import LayoutCheck.Proofs.RoundTrip
import Mathlib.Data.List.Forall2

/-!
Writing a tree down as nodes that describe themselves, and reading it again.

`Describes` says which values describe a tree: the fields of a node come in any order, a file has
any type but that of directories, and an empty directory may leave out its content. There is such a
value for every tree (`exists_describes`), and each of them is read as the tree
(`outcome_node_of_describes`). So both dialects can write down the same tree.
-/

namespace LayoutCheck

open Yaml (Entries Value)

/-! ## Looking up keys -/

namespace Yaml.Entries

variable {entries es : Entries} {key value : Value}

theorem value?_cons (e : Value × Value) (es : Entries) (key : Value) :
    Entries.value? (e :: es) key = if e.1 = key then some e.2 else es.value? key := by
  by_cases h : e.1 = key <;> simp [value?, h]

/-- Where no key occurs twice, a key has the value of its entry. -/
theorem value?_eq_some_iff (h : entries.Distinct) :
    entries.value? key = some value ↔ (key, value) ∈ entries := by
  induction entries with
  | nil => simp [value?]
  | cons e es ih =>
    obtain ⟨he, hes⟩ := List.pairwise_cons.mp h
    rw [value?_cons, List.mem_cons]
    split
    · rename_i hkey
      have hnot : (key, value) ∉ es := fun hmem => he _ hmem hkey
      simp [hnot, Prod.ext_iff, hkey, eq_comm]
    · rename_i hkey
      have hne : (key, value) ≠ e := fun heq => hkey (congrArg Prod.fst heq).symm
      rw [ih hes, or_iff_right hne]

/-- Where no key occurs twice, the order of the entries does not matter. -/
theorem value?_of_perm (h : entries.Perm es) (hes : es.Distinct) (key : Value) :
    entries.value? key = es.value? key := by
  have hentries : entries.Distinct := h.symm.pairwise hes fun hab => Ne.symm hab
  apply Option.ext
  intro value
  rw [value?_eq_some_iff hentries, value?_eq_some_iff hes, h.mem_iff]

end Yaml.Entries

namespace Specification.SelfDescribing

variable {place : Place} {location : String} {entries : Entries} {items : List Value} {t : Tree}
  {cs : List Tree}

/-! ## Documents for trees -/

/-- The fields of a node; the last two may be left out. -/
def fields (name type : String) (description : Option String) (content : Option Value) : Entries :=
  (.string Field.name.text, .string name) :: (.string Field.type.text, .string type) ::
    ((description.map fun d => (.string Field.description.text, .string d)).toList ++
      (content.map fun v => (.string Field.content.text, v)).toList)

inductive Describes : Value → Tree → Prop where
  /-- The content of a file does not matter. -/
  | file {n type : String} {d : Option String} {content : Option Value} {entries : Entries} :
      type ≠ directoryType → entries.Perm (fields n type d content) →
        Describes (.mapping entries) (.file n d)
  | directory {n : String} {d : Option String} {items : List Value} {cs : List Tree}
      {entries : Entries} :
      List.Forall₂ Describes items cs →
        entries.Perm (fields n directoryType d (some (.sequence items))) →
          Describes (.mapping entries) (.directory n d cs)
  | empty {n : String} {d : Option String} {entries : Entries} :
      entries.Perm (fields n directoryType d none) →
        Describes (.mapping entries) (.directory n d [])

/-- Nodes can give every description but an empty one. -/
def Describable (t : Tree) : Prop := t.description ≠ some ""

/-- There is a value for every tree. -/
theorem exists_describes (t : Tree) : ∃ entries, Describes (.mapping entries) t := by
  induction t using Tree.induction with
  | file n d => exact ⟨fields n "file" d none, .file (by decide) (.refl _)⟩
  | directory n d cs ih =>
    have hitems : ∃ items, List.Forall₂ Describes items cs := by
      induction cs with
      | nil => exact ⟨[], .nil⟩
      | cons c cs ihcs =>
        obtain ⟨hc, hcs⟩ := List.forall_mem_cons.mp ih
        obtain ⟨entries, hentries⟩ := hc
        obtain ⟨items, hitems⟩ := ihcs hcs
        exact ⟨.mapping entries :: items, .cons hentries hitems⟩
    obtain ⟨items, hitems⟩ := hitems
    exact ⟨fields n directoryType d (some (.sequence items)), .directory hitems (.refl _)⟩

/-! ## Reading them -/

theorem distinct_fields (n type : String) (d : Option String) (content : Option Value) :
    (fields n type d content).Distinct := by
  cases d <;> cases content <;> simp [fields, Entries.Distinct, Field.text]

/-- What each field of a node is, in whatever order they come. -/
theorem field?_of_perm {n type : String} {d : Option String} {content : Option Value}
    (h : entries.Perm (fields n type d content)) :
    field? entries .name = some (.string n) ∧ field? entries .type = some (.string type) ∧
      field? entries .description = d.map Value.string ∧ field? entries .content = content := by
  simp only [field?, Entries.value?_of_perm h (distinct_fields n type d content)]
  cases d <;> cases content <;> simp [fields, Entries.value?, Field.text]

theorem optionalText_of_field? {field : Field} {text : Option String}
    (h : field? entries field = text.map Value.string) (location : String) :
    optionalText entries field location = .ok text := by
  rw [optionalText, h]
  cases text <;> rfl

theorem requiredText_of_field? {field : Field} {text : String}
    (h : field? entries field = some (.string text)) (location : String) :
    requiredText entries field location = .ok text := by
  have htext : optionalText entries field location = .ok (some text) :=
    optionalText_of_field? h location
  rw [requiredText, htext]
  rfl

theorem readHeader_of_perm {n type : String} {d : Option String} {content : Option Value}
    (hn : isEntryName n) (h : entries.Perm (fields n type d content)) (place : Place) :
    readHeader place entries =
      .ok ⟨n, type = directoryType, d, namedPlaceText n place⟩ := by
  obtain ⟨hname, htype, hdescription, _⟩ := field?_of_perm h
  simp only [readHeader, requiredText_of_field? hname, checkEntryName_of_isEntryName hn,
    requiredText_of_field? htype, optionalText_of_field? hdescription, bind, Except.bind]
  rfl

/-- The content that is read is the value of the content field. -/
theorem content_eq (location : String) (entries : Entries) : content location entries =
    match field? entries .content with
    | some value => contentValue location value
    | none => pure [] := by
  induction entries with
  | nil => rfl
  | cons e es ih =>
    rw [content, field?, Entries.value?_cons]
    split
    · rw [contentEntry]
    · exact ih

/-- A list of nodes is read where each of them is, wherever it stands. -/
theorem outcome_nodes_of_forall₂ {R : Value → Tree → Prop} (hitems : List.Forall₂ R items cs)
    (h : ∀ v ∈ items, ∀ c ∈ cs, ∀ place, R v c → (node place v).outcome = .ok c) (index : Nat) :
    (nodes location index items).outcome = .ok cs := by
  induction hitems generalizing index with
  | nil => rfl
  | @cons v c vs cs hv _ ih =>
    have hfirst := h v (List.mem_cons_self ..) c (List.mem_cons_self ..) (some (location, index)) hv
    have hrest := ih fun w hw d hd => h w (List.mem_cons_of_mem v hw) d (List.mem_cons_of_mem c hd)
    rw [nodes, Attempt.outcome_bind_of_ok hfirst, Attempt.outcome_bind_of_ok (hrest _),
      Attempt.outcome_pure]

theorem attach_leaf {n location : String} {d : Option String} {isDirectory : Bool}
    (hd : d ≠ some "") :
    Header.attach ⟨n, isDirectory, d, location⟩ (.leaf n) = .file n d := by
  cases d with
  | none => rfl
  | some text =>
    have htext : text ≠ "" := fun he => hd (he ▸ rfl)
    simp [Header.attach, Tree.leaf, Tree.describe, htext]

theorem attach_branch {n location : String} {d : Option String} {isDirectory : Bool}
    (hd : d ≠ some "") (hcs : (cs.map Tree.name).Nodup) :
    Header.attach ⟨n, isDirectory, d, location⟩ (.branch n cs) = .directory n d cs := by
  cases d with
  | none => rw [Header.attach, Tree.branch, Tree.arrange_of_nodup hcs]
  | some text =>
    have htext : text ≠ "" := fun he => hd (he ▸ rfl)
    simp [Header.attach, Tree.branch, Tree.describe, htext, Tree.arrange_of_nodup hcs]

/-- A directory is read as soon as its content is. -/
theorem outcome_node_directory {n : String} {d : Option String} {value : Option Value}
    (h : Expressible Describable (.directory n d cs))
    (hperm : entries.Perm (fields n directoryType d value))
    (hcontent : ∀ location, (content location entries).outcome = .ok cs) (place : Place) :
    (node place (.mapping entries)).outcome = .ok (.directory n d cs) := by
  obtain ⟨hn, hcs, _⟩ := Tree.namedBy_directory.mp h.names
  have hheader : (liftM (readHeader place entries) : Parse Header).outcome =
      .ok ⟨n, true, d, namedPlaceText n place⟩ := by
    rw [readHeader_of_perm hn hperm place, decide_eq_true rfl]
    rfl
  rw [node, Attempt.outcome_bind_of_ok hheader, if_pos rfl,
    Attempt.outcome_bind_of_ok (hcontent _)]
  exact congrArg Except.ok (attach_branch h.descriptions.here hcs)

/-- Every value that describes a tree is read as that tree. -/
theorem outcome_node_of_describes (h : Expressible Describable t) {v : Value} (hv : Describes v t)
    (place : Place) : (node place v).outcome = .ok t := by
  induction t using Tree.induction generalizing v place with
  | file n d =>
    have hd : d ≠ some "" := h.descriptions.here
    cases hv with
    | @file _ type _ content entries htype hperm =>
      have hheader : (liftM (readHeader place entries) : Parse Header).outcome =
          .ok ⟨n, false, d, namedPlaceText n place⟩ := by
        rw [readHeader_of_perm h.names.here.1 hperm place, decide_eq_false htype]
        rfl
      rw [node, Attempt.outcome_bind_of_ok hheader, if_neg (by simp), file]
      split
      · exact congrArg Except.ok (attach_leaf hd)
      · exact congrArg Except.ok (attach_leaf hd)
  | directory n d cs ih =>
    have hread : ∀ c ∈ cs, ∀ v place, Describes v c → (node place v).outcome = .ok c :=
      fun c hc v place hv => ih c hc (h.of_mem_children hc) hv place
    cases hv with
    | directory hitems hperm =>
      refine outcome_node_directory h hperm (fun location => ?_) place
      rw [content_eq, (field?_of_perm hperm).2.2.2]
      exact outcome_nodes_of_forall₂ hitems (fun v _ c hc place => hread c hc v place) 0
    | empty hperm =>
      refine outcome_node_directory h hperm (fun location => ?_) place
      rw [content_eq, (field?_of_perm hperm).2.2.2]
      rfl

theorem outcome_parseTree_of_describes (h : Expressible Describable t) (hk : t.kind = .directory)
    (hv : Describes (.mapping entries) t) : (parseTree entries).outcome = .ok t := by
  have hroot : t.isDirectory = true := decide_eq_true hk
  rw [parseTree, Attempt.outcome_bind_of_ok (outcome_node_of_describes h hv none), if_pos hroot,
    Attempt.outcome_pure]

/-- A document that describes a tree has a name, and so is recognised. -/
theorem detect_of_describes (hv : Describes (.mapping entries) t) :
    Dialect.detect entries = .selfDescribing := by
  have hname : (field? entries .name).isSome := by
    cases hv with
    | file _ hperm => rw [(field?_of_perm hperm).1]; rfl
    | directory _ hperm => rw [(field?_of_perm hperm).1]; rfl
    | empty hperm => rw [(field?_of_perm hperm).1]; rfl
  simp [Dialect.detect, hname]

end Specification.SelfDescribing

/-! ## The two dialects -/

namespace Specification

open SelfDescribing (Describes fields)

variable {t : Tree}

theorem detect_root (v : Value) : Dialect.detect [(.string "src", v)] = .nested := by
  simp [Dialect.detect, SelfDescribing.field?, Entries.value?, Field.text]

/-- A tree without descriptions of directories can be written down in both dialects. -/
theorem Expressible.nested (h : Expressible SelfDescribing.Describable t)
    (hd : t.All fun s => s.kind = .directory → s.description = none) :
    Expressible Nested.Describable t := by
  refine ⟨h.names, (h.descriptions.and hd).imp ?_⟩
  rintro (⟨n, d⟩ | ⟨n, d, cs⟩) ⟨hs, hnone⟩
  · exact hs
  · exact hnone rfl

/--
Every directory can be described, and a document that describes it is read as it is, by name and by
detection. A directory of the root's name whose directories have no descriptions is also what the
nested document for it is read as.
-/
theorem selfDescribing_round_trip (h : Expressible SelfDescribing.Describable t)
    (hk : t.kind = .directory) :
    (∃ entries, Describes (.mapping entries) t) ∧
    ∀ entries, Describes (.mapping entries) t →
      (∀ dialect : Dialect, dialect = .selfDescribing ∨ dialect = .auto →
        (dialect.parseTree entries).outcome = .ok t) ∧
      (t.name = "src" → (t.All fun s => s.kind = .directory → s.description = none) →
        (Dialect.auto.parseTree [(.string "src", Nested.encode t)]).outcome =
          (Dialect.auto.parseTree entries).outcome) := by
  refine ⟨SelfDescribing.exists_describes t, fun entries hv => ?_⟩
  have hread : (SelfDescribing.parseTree entries).outcome = .ok t :=
    SelfDescribing.outcome_parseTree_of_describes h hk hv
  have hauto : (Dialect.auto.parseTree entries).outcome = .ok t := by
    rw [outcome_auto, SelfDescribing.detect_of_describes hv]
    exact hread
  refine ⟨?_, fun hn hd => ?_⟩
  · rintro dialect (rfl | rfl)
    · exact hread
    · exact hauto
  · rw [hauto, outcome_auto, detect_root]
    exact Nested.outcome_parseTree_root (h.nested hd) hn hk

/-- Fields in another order, a type of its own for a file, and a directory without content. -/
theorem selfDescribing_round_trip_reordered :
    let t := Tree.directory "src" none
      [.file "main.rs" (some "entry point"), .directory "net" none [.file "mod.rs" none],
        .directory "empty" none []]
    let main : Entries := [(.string "name", .string "main.rs"),
      (.string "description", .string "entry point"), (.string "type", .string "file")]
    let module : Entries := [(.string "type", .string "module"), (.string "name", .string "mod.rs")]
    let net : Entries := [(.string "name", .string "net"), (.string "type", .string "dir"),
      (.string "content", .sequence [.mapping module])]
    let empty : Entries := [(.string "type", .string "dir"), (.string "name", .string "empty")]
    let content : Value := .sequence [.mapping main, .mapping net, .mapping empty]
    let document : Entries :=
      [(.string "content", content), (.string "type", .string "dir"),
        (.string "name", .string "src")]
    Expressible SelfDescribing.Describable t ∧ t.kind = .directory ∧
      Describes (.mapping document) t ∧
      (Dialect.selfDescribing.parseTree document).outcome = .ok t ∧
      (Dialect.auto.parseTree [(.string "src", Nested.encode t)]).outcome =
        (Dialect.auto.parseTree document).outcome := by
  intro t main module net empty content document
  have ht : Expressible SelfDescribing.Describable t := by
    constructor
    · show t.NamedBy (isEntryName ·)
      decide
    · show t.All (·.description ≠ some "")
      simp [t, Tree.description]
  have hmain : main.Perm (fields "main.rs" "file" (some "entry point") none) :=
    .cons _ (.swap _ _ _)
  have hmodule : module.Perm (fields "mod.rs" "module" none none) := .swap _ _ _
  have hempty : empty.Perm (fields "empty" "dir" none none) := .swap _ _ _
  have hroot : document.Perm (fields "src" "dir" none (some content)) :=
    List.reverse_perm (fields "src" "dir" none (some content))
  have hdocument : Describes (.mapping document) t := by
    refine .directory (.cons ?_ (.cons ?_ (.cons (.empty hempty) .nil))) hroot
    · exact .file (by decide) hmain
    · exact .directory (.cons (.file (by decide) hmodule) .nil) (.refl _)
  obtain ⟨_, hread⟩ := selfDescribing_round_trip ht rfl
  obtain ⟨hself, hnested⟩ := hread document hdocument
  have hplain : t.All fun s => s.kind = .directory → s.description = none := by
    simp [t, Tree.description]
  exact ⟨ht, rfl, hdocument, hself _ (.inl rfl), hnested rfl hplain⟩

end Specification

end LayoutCheck
