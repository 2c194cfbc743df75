import LayoutCheck.Proofs.WellFormed
import LayoutCheck.Specification.Document
import Mathlib.Data.List.Forall2

/-!
The trees that specification documents declare.

`Yields` says what holds of the value of a computation if it has one; each way of combining
computations has one lemma about it. Both dialects check a name before they build an entry of that
name, so declared trees have what trees inherit as they are built from entry names (`Inherited`).
One such property is that all names are entry names (`yields_parse`).
-/

namespace LayoutCheck

namespace Attempt

variable {ε α β : Type} {P : α → Prop} {Q : β → Prop}

def Yields (x : Attempt ε α) (P : α → Prop) : Prop := ∀ a, x.outcome = .ok a → P a

theorem yields_pure {a : α} (h : P a) : (pure a : Attempt ε α).Yields P := by
  intro b hb
  obtain rfl : a = b := Except.ok.inj hb
  exact h

theorem yields_throw (e : ε) : (throw e : Attempt ε α).Yields P := by
  intro a ha
  cases ha

theorem Yields.bind {x : Attempt ε α} {f : α → Attempt ε β} (hx : x.Yields P)
    (hf : ∀ a, P a → (f a).Yields Q) : (x >>= f).Yields Q := by
  intro b hb
  rw [outcome_bind] at hb
  cases ha : x.outcome with
  | error e => simp [ha, Except.bind] at hb
  | ok a =>
    rw [ha] at hb
    exact hf a (hx a ha) b hb

/-- What comes second may decide alone. -/
theorem yields_bind {x : Attempt ε α} {f : α → Attempt ε β} (hf : ∀ a, (f a).Yields Q) :
    (x >>= f).Yields Q :=
  Yields.bind (fun _ _ => trivial) fun a (_ : True) => hf a

theorem yields_logged {x : Logged α} (h : P x.value) : (liftM x : Attempt ε α).Yields P := by
  intro a ha
  obtain rfl : x.value = a := Except.ok.inj ha
  exact h

/-- A sequence of two succeeds only where both do. -/
theorem exists_of_bind_eq_ok {x : Except ε α} {f : α → Except ε β} {b : β}
    (h : (x >>= f) = .ok b) : ∃ a, x = .ok a ∧ f a = .ok b := by
  cases x with
  | error e => cases h
  | ok a => exact ⟨a, rfl, h⟩

theorem outcome_bind_of_ok {x : Attempt ε α} {f : α → Attempt ε β} {a : α}
    (h : x.outcome = .ok a) : (x >>= f).outcome = (f a).outcome := by
  rw [outcome_bind, h]
  rfl

theorem outcome_bind_of_error {x : Attempt ε α} {f : α → Attempt ε β} {e : ε}
    (h : x.outcome = .error e) : (x >>= f).outcome = .error e := by
  rw [outcome_bind, h]
  rfl

theorem outcome_except_bind_of_ok {x : Except ε α} {f : α → Attempt ε β} {a : α}
    (h : x = .ok a) : ((liftM x : Attempt ε α) >>= f).outcome = (f a).outcome :=
  outcome_bind_of_ok (show (liftM x : Attempt ε α).outcome = .ok a from h)

theorem outcome_except_bind_of_error {x : Except ε α} {f : α → Attempt ε β} {e : ε}
    (h : x = .error e) : ((liftM x : Attempt ε α) >>= f).outcome = .error e :=
  outcome_bind_of_error (show (liftM x : Attempt ε α).outcome = .error e from h)

theorem outcome_mapError_of_ok {δ : Type} {x : Attempt ε α} {a : α} (h : x.outcome = .ok a)
    (f : ε → δ) : (x.mapError f).outcome = .ok a := by
  rw [outcome_mapError, h]
  rfl

theorem outcome_mapError_of_error {δ : Type} {x : Attempt ε α} {e : ε} (h : x.outcome = .error e)
    (f : ε → δ) : (x.mapError f).outcome = .error (f e) := by
  rw [outcome_mapError, h]
  rfl

theorem yields_except {x : Except ε α} (h : ∀ a, x = .ok a → P a) :
    (liftM x : Attempt ε α).Yields P := h

end Attempt

/-- Induction over a value: it may use what holds of the items, or of the values of the entries. -/
@[elab_as_elim]
theorem Yaml.Value.induction {P : Yaml.Value → Prop} (scalar : ∀ s, P (.scalar s))
    (sequence : ∀ items, (∀ v ∈ items, P v) → P (.sequence items))
    (mapping : ∀ entries, (∀ e ∈ entries, P e.2) → P (.mapping entries))
    (tagged : ∀ handle suffix v, P v → P (.tagged handle suffix v)) (v : Yaml.Value) : P v :=
  @Yaml.Value.rec P (fun vs => ∀ v ∈ vs, P v) (fun es => ∀ e ∈ es, P e.2) (fun e => P e.2)
    scalar sequence mapping tagged (by simp)
    (fun v vs hv hvs => List.forall_mem_cons.mpr ⟨hv, hvs⟩)
    (by simp) (fun e es he hes => List.forall_mem_cons.mpr ⟨he, hes⟩) (fun k v _ hv => hv) v

namespace Specification

open Attempt
open Yaml (Entries Value)

variable {location name : String} {t : Tree} {P : Tree → Prop}

/-- Every name is one that both dialects accept. -/
def Declared (t : Tree) : Prop := t.NamedBy (isEntryName ·)

/-- Files of entry names have the property, and so have directories of entries that have it. -/
structure Inherited (P : Tree → Prop) : Prop where
  leaf {n : String} : isEntryName n → P (.leaf n)
  described {n : String} (text : String) : isEntryName n → P ((Tree.leaf n).describe text)
  branch {n : String} {cs : List Tree} : isEntryName n → (∀ c ∈ cs, P c) → P (.branch n cs)

theorem inherited_declared : Inherited Declared where
  leaf hn := Tree.namedBy_leaf.mpr hn
  described text hn := (Tree.namedBy_describe text).mpr (Tree.namedBy_leaf.mpr hn)
  branch hn hcs := Tree.NamedBy.branch hn hcs

theorem Declared.wellFormed (h : Declared t) : t.WellFormed := by
  refine Tree.NamedBy.imp (fun n hn => ?_) h
  obtain ⟨hempty, _, _, hslash⟩ := (isEntryName_iff n).mp hn
  exact ⟨hempty, hslash⟩

theorem isEntryName_of_checkEntryName {u : Unit} (h : checkEntryName location name = .ok u) :
    isEntryName name := by
  unfold checkEntryName at h
  split at h
  · assumption
  · cases h

theorem checkEntryName_of_isEntryName (h : isEntryName name) (location : String) :
    checkEntryName location name = .ok () :=
  if_pos h

theorem checkEntryName_of_not_isEntryName (h : ¬ isEntryName name) (location : String) :
    checkEntryName location name = .error (.invalidName location name) :=
  if_neg h

/-! ## Nesting -/

namespace Nested

theorem yields_plainFile (hP : Inherited P) (hn : isEntryName name) :
    (declare.plainFile location name).Yields P :=
  yields_bind fun _ => yields_pure (hP.leaf hn)

theorem yields_declareEntry {e : Value × Value}
    (h : ∀ location name, isEntryName name → (declare location name e.2).Yields P) :
    (declareEntry location e).Yields P := by
  obtain ⟨key, value⟩ := e
  unfold declareEntry
  split
  · refine Yields.bind (yields_except fun _ => isEntryName_of_checkEntryName) ?_
    intro _ hn
    exact h _ _ hn
  · exact yields_throw _

theorem yields_declareAll {entries : Entries}
    (h : ∀ e ∈ entries, ∀ location name, isEntryName name →
      (declare location name e.2).Yields P) :
    (declareAll location entries).Yields (∀ t ∈ ·, P t) := by
  induction entries with
  | nil =>
    rw [declareAll]
    exact yields_pure (by simp)
  | cons e es ih =>
    have he : (declareEntry location e).Yields P :=
      yields_declareEntry (h e (List.mem_cons_self ..))
    have hes : (declareAll location es).Yields (∀ t ∈ ·, P t) :=
      ih (fun d hd => h d (List.mem_cons_of_mem e hd))
    rw [declareAll]
    refine he.bind ?_
    intro t ht
    refine hes.bind ?_
    intro ts hts
    exact yields_pure (List.forall_mem_cons.mpr ⟨ht, hts⟩)

theorem yields_declare (hP : Inherited P) (v : Value) (location : String) {name : String}
    (hn : isEntryName name) : (declare location name v).Yields P := by
  induction v using Value.induction generalizing location name with
  | scalar s =>
    unfold declare
    split
    · exact yields_pure (hP.described _ hn)
    · exact yields_plainFile hP hn
  | sequence items =>
    rw [declare]
    exact yields_plainFile hP hn
  | tagged handle suffix v =>
    rw [declare]
    exact yields_plainFile hP hn
  | mapping entries ih =>
    have hentries : (declareAll location entries).Yields (∀ t ∈ ·, P t) :=
      yields_declareAll (fun e he location _ hn => ih e he location hn)
    rw [declare]
    refine hentries.bind ?_
    intro cs hcs
    exact yields_logged (hP.branch hn hcs)

theorem yields_parseTree (hP : Inherited P) (entries : Entries) : (parseTree entries).Yields P := by
  have hroot : isEntryName rootName := by decide
  unfold parseTree
  split
  · refine yields_bind ?_
    intro _
    exact yields_declare hP _ _ hroot
  · exact yields_declare hP _ _ hroot

end Nested

/-! ## Nodes that describe themselves -/

namespace SelfDescribing

variable {place : Place} {entries : Entries} {h : Header}

/-- What is checked of a node before its header is read. -/
theorem exists_type_of_readHeader (hr : readHeader place entries = .ok h) :
    ∃ type, requiredText entries .name (placeText place) = .ok h.name ∧ isEntryName h.name ∧
      requiredText entries .type (namedPlaceText h.name place) = .ok type ∧
      optionalText entries .description (namedPlaceText h.name place) = .ok h.description ∧
      h = ⟨h.name, type = directoryType, h.description, namedPlaceText h.name place⟩ := by
  unfold readHeader at hr
  obtain ⟨name, hname, hr⟩ := exists_of_bind_eq_ok hr
  obtain ⟨_, hcheck, hr⟩ := exists_of_bind_eq_ok hr
  obtain ⟨type, htype, hr⟩ := exists_of_bind_eq_ok hr
  obtain ⟨description, hdescription, hr⟩ := exists_of_bind_eq_ok hr
  obtain rfl := Except.ok.inj hr
  exact ⟨type, hname, isEntryName_of_checkEntryName hcheck, htype, hdescription, rfl⟩

theorem isEntryName_of_readHeader (hr : readHeader place entries = .ok h) :
    isEntryName h.name := by
  obtain ⟨_, _, hn, _⟩ := exists_type_of_readHeader hr
  exact hn

theorem attach_inherited (hdescribe : ∀ t text, P t → P (t.describe text)) (ht : P t) :
    P (h.attach t) := by
  unfold Header.attach
  split
  · exact hdescribe _ _ ht
  · exact ht

theorem yields_file (hP : Inherited P) (hdescribe : ∀ t text, P t → P (t.describe text))
    (hn : isEntryName h.name) : (file h entries).Yields P := by
  have hleaf : P (h.attach (.leaf h.name)) := attach_inherited hdescribe (hP.leaf hn)
  unfold file
  split
  · exact yields_bind fun _ => yields_pure hleaf
  · exact yields_pure hleaf

/-- The content is that of the first content field, or empty if there is none. -/
theorem yields_content {P : List Tree → Prop} (hnil : P [])
    (hv : ∀ e ∈ entries, (contentValue location e.2).Yields P) :
    (content location entries).Yields P := by
  induction entries with
  | nil =>
    rw [content]
    exact yields_pure hnil
  | cons e es ih =>
    rw [content]
    split
    · rw [contentEntry]
      exact hv e (List.mem_cons_self ..)
    · exact ih fun d hd => hv d (List.mem_cons_of_mem e hd)

/-- Nodes that are read one by one are read as a list. -/
theorem yields_nodes_forall₂ {R : Value → Tree → Prop} {items : List Value}
    (hv : ∀ v ∈ items, ∀ place, (node place v).Yields (R v)) (index : Nat) :
    (nodes location index items).Yields (List.Forall₂ R items) := by
  induction items generalizing index with
  | nil =>
    rw [nodes]
    exact yields_pure .nil
  | cons v vs ih =>
    obtain ⟨hfirst, hrest⟩ := List.forall_mem_cons.mp hv
    rw [nodes]
    refine (hfirst _).bind ?_
    intro t ht
    refine (ih hrest _).bind ?_
    intro ts hts
    exact yields_pure (.cons ht hts)

theorem yields_nodes {items : List Value} (hv : ∀ v ∈ items, ∀ place, (node place v).Yields P)
    (index : Nat) : (nodes location index items).Yields (∀ t ∈ ·, P t) := by
  intro ts hts
  have hall : List.Forall₂ (fun _ => P) items ts := yields_nodes_forall₂ hv index ts hts
  clear hv hts
  induction hall with
  | nil => simp
  | cons ht _ ih => exact List.forall_mem_cons.mpr ⟨ht, ih⟩

/-- A value declares entries that inherit, be it read as a node or as the content of one. -/
theorem yields_node_and_contentValue (hP : Inherited P)
    (hdescribe : ∀ t text, P t → P (t.describe text)) (v : Value) :
    (∀ place, (node place v).Yields P) ∧
      ∀ location, (contentValue location v).Yields (∀ t ∈ ·, P t) := by
  induction v using Value.induction with
  | scalar s =>
    constructor <;> intro _
    · rw [node]
      exact yields_throw _
    · rw [contentValue]
      exact yields_throw _
  | tagged handle suffix v =>
    constructor <;> intro _
    · rw [node]
      exact yields_throw _
    · rw [contentValue]
      exact yields_throw _
  | sequence items ih =>
    constructor <;> intro _
    · rw [node]
      exact yields_throw _
    · rw [contentValue]
      exact yields_nodes (fun v hv => (ih v hv).1) 0
  | mapping entries ih =>
    constructor <;> intro _
    · rw [node]
      refine Yields.bind (yields_except fun _ => isEntryName_of_readHeader) ?_
      intro h hn
      have hcontent : (content h.location entries).Yields (∀ t ∈ ·, P t) :=
        yields_content (by simp) (fun e he => (ih e he).2 h.location)
      split
      · refine hcontent.bind ?_
        intro cs hcs
        have hbranch : P (Tree.branchLogged h.name cs).value := hP.branch hn hcs
        refine (yields_logged hbranch).bind ?_
        intro t ht
        exact yields_pure (attach_inherited hdescribe ht)
      · exact yields_file hP hdescribe hn
    · rw [contentValue]
      exact yields_throw _

theorem yields_parseTree (hP : Inherited P) (hdescribe : ∀ t text, P t → P (t.describe text))
    (entries : Entries) : (parseTree entries).Yields P := by
  unfold parseTree
  refine ((yields_node_and_contentValue hP hdescribe _).1 none).bind ?_
  intro t ht
  split
  · exact yields_pure ht
  · exact yields_throw _

end SelfDescribing

/-! ## Documents -/

/-- A document is read in one way or the other. -/
theorem Dialect.yields_of_both {entries : Entries} (hnested : (Nested.parseTree entries).Yields P)
    (hself : (SelfDescribing.parseTree entries).Yields P) (dialect : Dialect) :
    (dialect.parseTree entries).Yields P := by
  cases dialect with
  | nested => exact hnested
  | selfDescribing => exact hself
  | auto =>
    refine yields_bind ?_
    intro _
    split
    · exact hself
    · exact hnested

/-- What trees inherit, and keep when they are described, holds of every declared tree. -/
theorem Dialect.yields_parseTree (hP : Inherited P)
    (hdescribe : ∀ t text, P t → P (t.describe text)) (dialect : Dialect) (entries : Entries) :
    (dialect.parseTree entries).Yields P :=
  dialect.yields_of_both (Nested.yields_parseTree hP entries)
    (SelfDescribing.yields_parseTree hP hdescribe entries)

theorem Dialect.yields_declared (dialect : Dialect) (entries : Entries) :
    (dialect.parseTree entries).Yields Declared :=
  dialect.yields_parseTree inherited_declared
    (fun _ text => (Tree.namedBy_describe text).mpr) entries

/-- Every tree that a text declares has entry names, each once in its directory. -/
theorem yields_parse (dialect : Dialect) (text : String) :
    (parse dialect text).Yields Declared := by
  refine yields_bind ?_
  intro documents
  refine yields_bind ?_
  intro entries
  exact dialect.yields_declared entries

end Specification

end LayoutCheck
