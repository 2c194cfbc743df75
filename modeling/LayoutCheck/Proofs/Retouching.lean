import LayoutCheck.Proofs.SelfDescribingGrammar
import Mathlib.Logic.Relation

/-!
Edits of a document of nodes that change nothing in what it declares.

A node is read through its four fields, and the content of a node that is no directory is not read
at all (`outcome_node_congr`). So the entries of a node may change places, and entries that are not
read may come, go and change (`Retouched.outcome_node`). This holds of the nodes in the content of a
directory as well, and any number of such edits leads to the same tree or to the same error
(`outcome_parseTree_of_retouched`).
-/

namespace LayoutCheck

open Yaml (Entries Value)

namespace Yaml.Entries

variable {before after : Entries} {key other value : Value}

theorem value?_insert_of_ne (h : other ≠ key) :
    value? (before ++ (other, value) :: after) key = value? (before ++ after) key := by
  simp [value?, List.find?_append, h]

/-- A key has the value of the first of its entries. -/
theorem value?_insert_self :
    value? (before ++ (key, value) :: after) key = (value? before key).or (some value) := by
  rw [value?, List.find?_append, Option.map_or]
  simp [value?]

end Yaml.Entries

namespace Specification.SelfDescribing

open Attempt

variable {entries fs before after : Entries} {key value other v w : Value} {field : Field}
  {location : String}

/-! ## What is read of a node -/

def IsDirectory (entries : Entries) : Prop :=
  field? entries .type = some (.string directoryType)

theorem readHeader_congr (h : ∀ field, field ≠ .content → field? entries field = field? fs field)
    (place : Place) : readHeader place entries = readHeader place fs := by
  simp only [readHeader, requiredText, optionalText, h .name (by decide), h .type (by decide),
    h .description (by decide)]

theorem field?_of_requiredText {text : String}
    (h : requiredText entries field location = .ok text) :
    field? entries field = some (.string text) := by
  obtain ⟨found, hfound, h⟩ := exists_of_bind_eq_ok h
  unfold optionalText at hfound
  split at hfound
  · obtain rfl := Except.ok.inj hfound
    cases h
  · rename_i text' hfield
    obtain rfl := Except.ok.inj hfound
    obtain rfl := Except.ok.inj h
    exact hfield
  · cases hfound

theorem isDirectory_of_readHeader {place : Place} {h : Header}
    (hr : readHeader place entries = .ok h) (hd : h.isDirectory) : IsDirectory entries := by
  obtain ⟨type, _, _, htype, _, heq⟩ := exists_type_of_readHeader hr
  rw [heq] at hd
  obtain rfl : type = directoryType := by simpa using hd
  exact field?_of_requiredText htype

theorem outcome_file (h : Header) (entries : Entries) :
    (file h entries).outcome = .ok (h.attach (.leaf h.name)) := by
  unfold file
  split <;> rfl

/-- Nodes that agree in their fields are read alike, where the content counts for directories. -/
theorem outcome_node_congr
    (h : ∀ field, field ≠ .content → field? entries field = field? fs field)
    (hcontent : IsDirectory entries →
      ∀ location, (content location entries).outcome = (content location fs).outcome)
    (place : Place) :
    (node place (.mapping entries)).outcome = (node place (.mapping fs)).outcome := by
  have hheader := readHeader_congr h place
  rw [node, node, ← hheader]
  cases hr : readHeader place entries with
  | error e => rw [outcome_except_bind_of_error rfl, outcome_except_bind_of_error rfl]
  | ok header =>
    rw [outcome_except_bind_of_ok rfl, outcome_except_bind_of_ok rfl]
    split
    · rename_i hd
      rw [outcome_bind, outcome_bind, hcontent (isDirectory_of_readHeader hr hd)]
    · rw [outcome_file, outcome_file]

/-- In a list of nodes one may stand for another that is read alike. -/
theorem outcome_nodes_congr (h : ∀ place, (node place v).outcome = (node place w).outcome)
    (left right : List Value) (index : Nat) :
    (nodes location index (left ++ v :: right)).outcome =
      (nodes location index (left ++ w :: right)).outcome := by
  induction left generalizing index with
  | nil =>
    rw [List.nil_append, List.nil_append, nodes, nodes, outcome_bind, outcome_bind, h]
  | cons u left ih =>
    rw [List.cons_append, List.cons_append, nodes, nodes, outcome_bind, outcome_bind]
    simp only [outcome_bind, ih]

/-! ## One edit -/

/-- The key of an entry that is not read: it is no field, or the content of a node whose type is
another than that of directories. -/
inductive Unread (entries : Entries) : Value → Prop where
  | foreign {key : Value} : (∀ field : Field, key ≠ .string field.text) → Unread entries key
  | content {type : String} : field? entries .type = some (.string type) → type ≠ directoryType →
      Unread entries (.string Field.content.text)

/-- One edit of a node, or of a node in the content of a directory. No key of a node that is put in
another order occurs twice. -/
inductive Retouched : Entries → Entries → Prop where
  | reorder {entries fs : Entries} : entries.Distinct → entries.Perm fs → Retouched entries fs
  | add {before after : Entries} {key value : Value} : Unread (before ++ after) key →
      Retouched (before ++ after) (before ++ (key, value) :: after)
  | remove {before after : Entries} {key value : Value} : Unread (before ++ after) key →
      Retouched (before ++ (key, value) :: after) (before ++ after)
  | change {before after : Entries} {key value other : Value} : Unread (before ++ after) key →
      Retouched (before ++ (key, value) :: after) (before ++ (key, other) :: after)
  | item {before after entries fs : Entries} {left right : List Value} :
      IsDirectory (before ++ after) → Retouched entries fs →
        Retouched
          (before ++ (.string Field.content.text, .sequence (left ++ .mapping entries :: right)) ::
            after)
          (before ++ (.string Field.content.text, .sequence (left ++ .mapping fs :: right)) ::
            after)

theorem Unread.ne_text (h : Unread entries key) (hfield : field ≠ .content) :
    key ≠ .string field.text := by
  cases h with
  | foreign hforeign => exact hforeign field
  | content => cases field <;> simp_all [Field.text]

/-- The content of a directory is read. -/
theorem Unread.ne_content (h : Unread entries key) (hd : IsDirectory entries) :
    key ≠ .string Field.content.text := by
  cases h with
  | foreign hforeign => exact hforeign .content
  | content htype hne =>
    rw [IsDirectory, htype] at hd
    exact absurd (by simpa using hd) hne

/-- An entry that is not read makes no difference to any field but the content. -/
theorem Unread.field?_insert (h : Unread (before ++ after) key) (value : Value)
    (hfield : field ≠ .content) :
    field? (before ++ after) field = field? (before ++ (key, value) :: after) field :=
  (Entries.value?_insert_of_ne (h.ne_text hfield)).symm

/-- A node is read alike with an entry that is not read and without it. -/
theorem Unread.outcome_node (h : Unread (before ++ after) key) (value : Value) (place : Place) :
    (node place (.mapping (before ++ after))).outcome =
      (node place (.mapping (before ++ (key, value) :: after))).outcome := by
  refine outcome_node_congr (fun _ => h.field?_insert value) (fun hd location => ?_) place
  rw [content_eq, content_eq, field?, field?, Entries.value?_insert_of_ne (h.ne_content hd)]

theorem field?_insert_content (value : Value) (hfield : field ≠ .content) :
    field? (before ++ (.string Field.content.text, value) :: after) field =
      field? (before ++ after) field := by
  refine Entries.value?_insert_of_ne ?_
  cases field <;> simp_all [Field.text]

theorem Retouched.field? (h : Retouched entries fs) (hfield : field ≠ .content) :
    field? entries field = SelfDescribing.field? fs field := by
  cases h with
  | reorder hdistinct hperm => exact (Entries.value?_of_perm hperm.symm hdistinct _).symm
  | add hkey => exact hkey.field?_insert _ hfield
  | remove hkey => exact (hkey.field?_insert _ hfield).symm
  | change hkey => exact (hkey.field?_insert _ hfield).symm.trans (hkey.field?_insert _ hfield)
  | item => rw [field?_insert_content _ hfield, field?_insert_content _ hfield]

/-- A node is read alike before and after an edit, wherever it stands. -/
theorem Retouched.outcome_node (h : Retouched entries fs) (place : Place) :
    (node place (.mapping entries)).outcome = (node place (.mapping fs)).outcome := by
  induction h generalizing place with
  | reorder hdistinct hperm =>
    refine outcome_node_congr (fun _ => (Retouched.reorder hdistinct hperm).field?)
      (fun _ location => ?_) place
    rw [content_eq, content_eq, SelfDescribing.field?, SelfDescribing.field?,
      Entries.value?_of_perm hperm.symm hdistinct]
  | add hkey => exact hkey.outcome_node _ place
  | remove hkey => exact (hkey.outcome_node _ place).symm
  | change hkey => exact (hkey.outcome_node _ place).symm.trans (hkey.outcome_node _ place)
  | @item before after entries fs left right hd hitem ih =>
    refine outcome_node_congr (fun _ => (Retouched.item hd hitem).field?)
      (fun _ location => ?_) place
    rw [content_eq, content_eq, SelfDescribing.field?, SelfDescribing.field?,
      Entries.value?_insert_self, Entries.value?_insert_self]
    cases before.value? (.string Field.content.text) with
    | some value => rfl
    | none =>
      have hitems : ∀ items, contentValue location (.sequence items) = nodes location 0 items :=
        fun items => by rw [contentValue]
      simp only [Option.none_or, hitems]
      exact outcome_nodes_congr ih left right 0

/-! ## Any number of edits -/

theorem Retouched.outcome_parseTree (h : Retouched entries fs) :
    (parseTree entries).outcome = (parseTree fs).outcome := by
  rw [parseTree, parseTree, outcome_bind, outcome_bind, h.outcome_node]

theorem Retouched.detect (h : Retouched entries fs) :
    Dialect.detect entries = Dialect.detect fs := by
  simp only [Dialect.detect, h.field? (show Field.name ≠ .content by decide),
    h.field? (show Field.type ≠ .content by decide)]

end Specification.SelfDescribing

namespace Specification

open SelfDescribing (Retouched field? parseTree)

/--
Only the four fields of a node count, in any order, and the content counts for directories only.
After any number of edits of other kinds a document declares the same tree or is refused with the
same error, as nodes that describe themselves and, if it has a name or a type at the top, also when
the dialect is detected.
-/
theorem outcome_parseTree_of_retouched {entries fs : Entries}
    (h : Relation.ReflTransGen Retouched entries fs) :
    (Dialect.selfDescribing.parseTree entries).outcome =
        (Dialect.selfDescribing.parseTree fs).outcome ∧
      ((field? entries .name).isSome ∨ (field? entries .type).isSome →
        (Dialect.auto.parseTree entries).outcome = (Dialect.auto.parseTree fs).outcome) := by
  obtain ⟨hself, hdetect⟩ : (parseTree entries).outcome = (parseTree fs).outcome ∧
      Dialect.detect entries = Dialect.detect fs := by
    induction h with
    | refl => exact ⟨rfl, rfl⟩
    | tail _ hlast ih => exact ⟨ih.1.trans hlast.outcome_parseTree, ih.2.trans hlast.detect⟩
  refine ⟨hself, fun hfield => ?_⟩
  have hnodes : Dialect.detect entries = .selfDescribing := by
    rw [Dialect.detect, if_pos (by simpa using hfield)]
  rw [outcome_auto, outcome_auto, ← hdetect, hnodes]
  exact hself

/-- A file loses its content, the directory gets an entry under a number, and its entries change
places. -/
theorem outcome_parseTree_of_retouched_file :
    let name : Value × Value := (.string "name", .string "src")
    let type : Value × Value := (.string "type", .string "dir")
    let number : Value × Value := (.scalar (.integer 1), .scalar .null)
    let content (items : List Value) : Value × Value := (.string "content", .sequence items)
    let main : Entries := [(.string "name", .string "main.rs"), (.string "type", .string "file")]
    let document : Entries := [name, type, content [.mapping (main ++ [content []])]]
    let edited : Entries := [content [.mapping main], number, type, name]
    Relation.ReflTransGen Retouched document edited ∧ (field? document .name).isSome ∧
      (Dialect.auto.parseTree document).outcome = .ok (.branch "src" [.leaf "main.rs"]) := by
  intro name type number content main document edited
  have hfile : field? (main ++ []) .type = some (.string "file") := by
    simp [main, field?, Entries.value?, Field.text]
  have hmain : Retouched (main ++ [content []]) main :=
    @Retouched.remove main [] _ _ (.content hfile (by decide))
  have hdirectory : SelfDescribing.IsDirectory ([name, type] ++ []) := by
    unfold SelfDescribing.IsDirectory
    decide +kernel
  have hitem : Retouched document [name, type, content [.mapping main]] :=
    @Retouched.item [name, type] [] _ _ [] [] hdirectory hmain
  have hnumber : Retouched [name, type, content [.mapping main]]
      [name, type, number, content [.mapping main]] := by
    refine @Retouched.add [name, type] [content [.mapping main]] _ _ (.foreign fun field => ?_)
    simp
  have horder : Retouched [name, type, number, content [.mapping main]] edited := by
    refine .reorder ?_ (List.reverse_perm edited)
    simp [Entries.Distinct, name, type, number, content]
  have hedits : Relation.ReflTransGen Retouched document edited :=
    .head hitem (.head hnumber (.single horder))
  have hname : (field? document .name).isSome := by decide +kernel
  have hread := (outcome_parseTree_of_retouched hedits).2 (.inl hname)
  exact ⟨hedits, hname, hread.trans (by decide +kernel)⟩

end Specification

end LayoutCheck
