import LayoutCheck.Proofs.DistinctKeys
import LayoutCheck.Proofs.RoundTrip
import Mathlib.Data.List.Forall2
import Mathlib.Data.List.Nodup

/-!
Which nested documents declare a tree, which tree it is, and what is said of the others.

`occurrences` lists the keys of a document in its order: a key before what is below it, and that
before the next key. Reading stops at the first of them that cannot be the name of an entry
(`settled_declare`), so it succeeds where there is none. If no key occurs twice, the tree has an
entry for each key, in the same order (`yields_declare_mirrors`).
-/

namespace LayoutCheck

open Yaml (Entries Scalar Value)

namespace Specification.Nested

open Attempt
open Yaml.Value (keysDistinct_mapping)

variable {α β : Type} {location name : String} {entries m d : Entries} {v : Value}

/-! ## The keys of a document -/

/-- A key, with the keys of the mappings around it from the outermost on. -/
structure Occurrence where
  above : List Value
  key : Value

def Occurrence.under (key : Value) (o : Occurrence) : Occurrence := ⟨key :: o.above, o.key⟩

mutual

/-- All keys of a value, in the order of the document. Only mappings in mappings have any. -/
def occurrences : Value → List Occurrence
  | .mapping entries => occurrencesAll entries
  | .scalar _ => []
  | .sequence _ => []
  | .tagged .. => []

def occurrencesAll : List (Value × Value) → List Occurrence
  | [] => []
  | e :: es => occurrencesIn e ++ occurrencesAll es

def occurrencesIn : Value × Value → List Occurrence
  | (key, value) => ⟨[], key⟩ :: (occurrences value).map (·.under key)

end

def isEntryKey : Value → Bool
  | .string name => isEntryName name
  | _ => false

def refusal (location : String) : Value → ParseError
  | .string name => .invalidName location name
  | _ => .nonStringKey location

def firstOffence (os : List Occurrence) : Option Occurrence := os.find? (!isEntryKey ·.key)

/-- The outcome of a reading that stops at the offence, if there is one. -/
def Settled (location : String) (outcome : Except ParseError α) : Option Occurrence → Prop
  | none => ∃ a, outcome = .ok a
  | some o => ∃ names : List String, o.above = names.map Value.string ∧
      outcome = .error (refusal ("/".intercalate (location :: names)) o.key)

theorem firstOffence_append (os ps : List Occurrence) :
    firstOffence (os ++ ps) = (firstOffence os).or (firstOffence ps) :=
  List.find?_append

theorem firstOffence_under (key : Value) (os : List Occurrence) :
    firstOffence (os.map (·.under key)) = (firstOffence os).map (·.under key) :=
  List.find?_map

/-- A key comes before what is below it. -/
theorem firstOffence_occurrencesIn (key value : Value) :
    firstOffence (occurrencesIn (key, value)) =
      if isEntryKey key then (firstOffence (occurrences value)).map (·.under key)
      else some ⟨[], key⟩ := by
  rw [occurrencesIn]
  split
  · rename_i hkey
    exact (List.find?_cons_of_neg (by simp [hkey])).trans (firstOffence_under key _)
  · rename_i hkey
    exact List.find?_cons_of_pos (by simp [hkey])

theorem isEntryKey_string (name : String) : isEntryKey (.string name) = isEntryName name := rfl

theorem offends_of_ne_string {key : Value} (h : ∀ name, key ≠ .string name) (location : String) :
    ¬ isEntryKey key ∧ refusal location key = .nonStringKey location := by
  unfold isEntryKey refusal
  split
  · exact absurd rfl (h _)
  · simp

theorem settled_bind {x : Parse α} {f : α → Parse β} {first next : Option Occurrence}
    (hx : Settled location x.outcome first) (hf : ∀ a, Settled location (f a).outcome next) :
    Settled location (x >>= f).outcome (first.or next) := by
  cases first with
  | none =>
    obtain ⟨a, ha⟩ := hx
    rw [outcome_bind_of_ok ha]
    exact hf a
  | some o =>
    obtain ⟨names, habove, he⟩ := hx
    exact ⟨names, habove, outcome_bind_of_error he⟩

/-- An offence under a key is one of the mapping around, a step further down. -/
theorem Settled.under {outcome : Except ParseError α} {first : Option Occurrence}
    (h : Settled (location ++ "/" ++ name) outcome first) :
    Settled location outcome (first.map (·.under (.string name))) := by
  cases first with
  | none => exact h
  | some o =>
    obtain ⟨names, habove, he⟩ := h
    refine ⟨name :: names, ?_, ?_⟩
    · simp [Occurrence.under, habove]
    · rw [he, String.intercalate_cons_append, String.intercalate_cons_cons]
      rfl

theorem settled_declareEntry {e : Value × Value}
    (h : ∀ location name, Settled location (declare location name e.2).outcome
      (firstOffence (occurrences e.2))) :
    Settled location (declareEntry location e).outcome (firstOffence (occurrencesIn e)) := by
  obtain ⟨key, value⟩ := e
  rw [firstOffence_occurrencesIn]
  unfold declareEntry
  split
  · rename_i name
    rw [isEntryKey_string]
    split
    · rename_i hn
      rw [outcome_except_bind_of_ok (checkEntryName_of_isEntryName hn location)]
      exact (h _ name).under
    · rename_i hn
      rw [outcome_except_bind_of_error (checkEntryName_of_not_isEntryName hn location)]
      exact ⟨[], rfl, by simp [refusal]⟩
  · rename_i hkey
    obtain ⟨hoffends, hrefusal⟩ := offends_of_ne_string hkey location
    rw [if_neg hoffends]
    exact ⟨[], rfl, by simp [hrefusal]⟩

theorem settled_declareAll (h : ∀ e ∈ entries, ∀ location name,
      Settled location (declare location name e.2).outcome (firstOffence (occurrences e.2))) :
    Settled location (declareAll location entries).outcome
      (firstOffence (occurrencesAll entries)) := by
  induction entries with
  | nil => exact ⟨[], rfl⟩
  | cons e es ih =>
    obtain ⟨he, hes⟩ := List.forall_mem_cons.mp h
    rw [declareAll, occurrencesAll, firstOffence_append]
    refine settled_bind (settled_declareEntry he) fun t => ?_
    rw [← Option.or_none (o := firstOffence (occurrencesAll es))]
    exact settled_bind (ih hes) fun ts => ⟨t :: ts, rfl⟩

/-- Reading a value stops at the first key that cannot be the name of an entry. -/
theorem settled_declare (v : Value) (location name : String) :
    Settled location (declare location name v).outcome (firstOffence (occurrences v)) := by
  induction v using Value.induction generalizing location name with
  | scalar s =>
    cases s with
    | string text => exact ⟨_, rfl⟩
    | _ => exact ⟨_, rfl⟩
  | sequence items => exact ⟨_, rfl⟩
  | tagged handle suffix v => exact ⟨_, rfl⟩
  | mapping entries ih =>
    rw [declare, occurrences, ← Option.or_none (o := firstOffence (occurrencesAll entries))]
    exact settled_bind (settled_declareAll ih) fun cs => ⟨_, rfl⟩

/-! ## The tree that is declared -/

/-- The tree has what the value declares, entry for entry. -/
inductive Mirrors : Value → Tree → Prop where
  | directory {name : String} {entries : Entries} {cs : List Tree} :
      entries.map (·.1) = cs.map (Value.string ·.name) →
        List.Forall₂ Mirrors (entries.map (·.2)) cs →
          Mirrors (.mapping entries) (.directory name none cs)
  | described {name text : String} : text ≠ "" → Mirrors (.string text) (.file name (some text))
  | plain {name : String} {v : Value} : (∀ entries, v ≠ .mapping entries) →
      (∀ text, v = .string text → text = "") → Mirrors v (.file name none)

theorem nodup_names_of_keys {cs : List Tree} (h : entries.Distinct)
    (hkeys : entries.map (·.1) = cs.map (Value.string ·.name)) : (cs.map Tree.name).Nodup := by
  have hnodup : (entries.map (·.1)).Nodup := List.pairwise_map.mpr h
  have hmap : entries.map (·.1) = (cs.map Tree.name).map Value.string := by
    rw [hkeys, List.map_map]
    rfl
  exact List.Nodup.of_map Value.string (hmap ▸ hnodup)

theorem yields_plainFile_mirrors (hv : ∀ entries, v ≠ .mapping entries)
    (htext : ∀ text, v = .string text → text = "") :
    (declare.plainFile location name).Yields fun t => t.name = name ∧ Mirrors v t :=
  yields_bind fun _ => yields_pure ⟨rfl, .plain hv htext⟩

theorem mirrors_describe (name text : String) :
    Mirrors (.string text) ((Tree.leaf name).describe text) := by
  by_cases htext : text = ""
  · simpa [Tree.leaf, Tree.describe, htext] using Mirrors.plain (by simp) (by simp)
  · simpa [Tree.leaf, Tree.describe, htext] using Mirrors.described htext

theorem yields_declareEntry_mirrors {e : Value × Value}
    (h : ∀ location name, (declare location name e.2).Yields fun t =>
      t.name = name ∧ Mirrors e.2 t) :
    (declareEntry location e).Yields fun t => e.1 = .string t.name ∧ Mirrors e.2 t := by
  obtain ⟨key, value⟩ := e
  unfold declareEntry
  split
  · rename_i name
    refine yields_bind fun _ t ht => ?_
    obtain ⟨hn, hmirrors⟩ := h _ _ t ht
    exact ⟨congrArg Value.string hn.symm, hmirrors⟩
  · exact yields_throw _

theorem yields_declareAll_mirrors (h : ∀ e ∈ entries, ∀ location name,
      (declare location name e.2).Yields fun t => t.name = name ∧ Mirrors e.2 t) :
    (declareAll location entries).Yields fun cs =>
      entries.map (·.1) = cs.map (Value.string ·.name) ∧
        List.Forall₂ Mirrors (entries.map (·.2)) cs := by
  induction entries with
  | nil =>
    rw [declareAll]
    exact yields_pure ⟨rfl, .nil⟩
  | cons e es ih =>
    obtain ⟨he, hes⟩ := List.forall_mem_cons.mp h
    rw [declareAll]
    refine (yields_declareEntry_mirrors he).bind ?_
    rintro t ⟨hkey, ht⟩
    refine (ih hes).bind ?_
    rintro ts ⟨hkeys, hts⟩
    exact yields_pure ⟨by simp [hkey, hkeys], .cons ht hts⟩

/-- What is declared under a name is an entry of that name that mirrors the value. -/
theorem yields_declare_mirrors (hv : v.KeysDistinct) (location name : String) :
    (declare location name v).Yields fun t => t.name = name ∧ Mirrors v t := by
  induction v using Value.induction generalizing location name with
  | scalar s =>
    unfold declare
    split
    · exact yields_pure ⟨Tree.name_describe _ _, mirrors_describe _ _⟩
    · rename_i hs
      exact yields_plainFile_mirrors (by simp) fun text ht => absurd (Value.scalar.inj ht) (hs text)
  | sequence items =>
    rw [declare]
    exact yields_plainFile_mirrors (by simp) (by simp)
  | tagged handle suffix v =>
    rw [declare]
    exact yields_plainFile_mirrors (by simp) (by simp)
  | mapping entries ih =>
    obtain ⟨hdistinct, hvalues⟩ := keysDistinct_mapping.mp hv
    rw [declare]
    refine (yields_declareAll_mirrors fun e he => ih e he (hvalues e he)).bind ?_
    rintro cs ⟨hkeys, hcs⟩
    have hnodup : (cs.map Tree.name).Nodup := nodup_names_of_keys hdistinct hkeys
    refine yields_logged ⟨rfl, ?_⟩
    rw [Tree.branchLogged, Tree.branch, Tree.arrange_of_nodup hnodup]
    exact .directory hkeys hcs

/-! ## Documents -/

/-- The mapping that stands for the root: that of a lone key of the root's name, or all of it. -/
inductive Body : Entries → Entries → Prop where
  | lone (d : Entries) : Body [(.string "src", .mapping d)] d
  | whole {m : Entries} : (∀ d, m ≠ [(.string "src", .mapping d)]) → Body m m

theorem wrapped?_eq_some_iff : wrapped? m = some d ↔ m = [(.string "src", .mapping d)] := by
  constructor
  · intro h
    unfold wrapped? at h
    split at h
    · split at h
      · rename_i hkey
        rw [hkey, Option.some.inj h]
        rfl
      · cases h
    · cases h
  · rintro rfl
    exact wrapped?_root d

/-- Each document has one body, which is the mapping that is read. -/
theorem body_iff : Body m d ↔ d = (wrapped? m).getD m := by
  constructor
  · rintro (_ | hm)
    · rw [wrapped?_eq_some_iff.mpr rfl, Option.getD_some]
    · have hnone : wrapped? m = none :=
        Option.eq_none_iff_forall_ne_some.mpr fun d hd => hm d (wrapped?_eq_some_iff.mp hd)
      rw [hnone, Option.getD_none]
  · rintro rfl
    cases h : wrapped? m with
    | none =>
      refine .whole fun d hd => ?_
      rw [wrapped?_eq_some_iff.mpr hd] at h
      cases h
    | some d =>
      obtain rfl := wrapped?_eq_some_iff.mp h
      exact .lone d

theorem Body.keysDistinct (h : Body m d) (hm : (Value.mapping m).KeysDistinct) :
    (Value.mapping d).KeysDistinct := by
  cases h with
  | lone d => exact (keysDistinct_mapping.mp hm).2 _ (List.mem_singleton_self _)
  | whole _ => exact hm

theorem Settled.exists_ok_iff {outcome : Except ParseError α} {os : List Occurrence}
    (h : Settled location outcome (firstOffence os)) :
    (∃ a, outcome = .ok a) ↔ ∀ o ∈ os, isEntryKey o.key := by
  cases hfirst : firstOffence os with
  | none =>
    have hnone : ∀ o ∈ os, isEntryKey o.key := by simpa using List.find?_eq_none.mp hfirst
    exact iff_of_true (by simpa [Settled, hfirst] using h) hnone
  | some o =>
    rw [hfirst] at h
    obtain ⟨_, _, rfl⟩ := h
    have hmem : o ∈ os := List.mem_of_find?_eq_some hfirst
    have hkey : ¬ isEntryKey o.key := by simpa using List.find?_some hfirst
    exact iff_of_false (by simp) fun hall => hkey (hall o hmem)

theorem Settled.error_iff {outcome : Except ParseError α} {os : List Occurrence}
    (h : Settled location outcome (firstOffence os)) (e : ParseError) :
    outcome = .error e ↔ ∃ before o after, ∃ names : List String, os = before ++ o :: after ∧
      (∀ b ∈ before, isEntryKey b.key) ∧ ¬ isEntryKey o.key ∧ o.above = names.map Value.string ∧
        e = refusal ("/".intercalate (location :: names)) o.key := by
  have hsplit : ∀ o, firstOffence os = some o ↔ ¬ isEntryKey o.key ∧
      ∃ before after, os = before ++ o :: after ∧ ∀ b ∈ before, isEntryKey b.key := by
    simp [firstOffence, List.find?_eq_some_iff_append]
  constructor
  · rintro rfl
    cases hfirst : firstOffence os with
    | none =>
      rw [hfirst] at h
      obtain ⟨a, ha⟩ := h
      cases ha
    | some o =>
      rw [hfirst] at h
      obtain ⟨names, habove, he⟩ := h
      obtain ⟨hkey, before, after, hos, hbefore⟩ := (hsplit o).mp hfirst
      exact ⟨before, o, after, names, hos, hbefore, hkey, habove, Except.error.inj he⟩
  · rintro ⟨before, o, after, names, hos, hbefore, hkey, habove, rfl⟩
    rw [(hsplit o).mpr ⟨hkey, before, after, hos, hbefore⟩] at h
    obtain ⟨others, hothers, he⟩ := h
    have hnames : others = names :=
      List.map_injective_iff.mpr (fun _ _ hab => by simpa using hab) (hothers.symm.trans habove)
    rw [he, hnames]

/--
A nested document is read exactly if each of its keys, and each key of a mapping below, can be the
name of an entry. Then the tree is called like the root and has an entry for each key, in the same
order. Otherwise the first key that cannot is refused, at the path of the keys around it.
-/
theorem nested_grammar (hd : Body m d) (hm : (Value.mapping m).KeysDistinct) :
    let keys := occurrences (.mapping d)
    ((∃ t, (parseTree m).outcome = .ok t) ↔ ∀ o ∈ keys, isEntryKey o.key) ∧
    (∀ t, (parseTree m).outcome = .ok t → t.name = "src" ∧ Mirrors (.mapping d) t) ∧
    ∀ e, (parseTree m).outcome = .error e ↔
      ∃ before o after, ∃ names : List String, keys = before ++ o :: after ∧
        (∀ b ∈ before, isEntryKey b.key) ∧ ¬ isEntryKey o.key ∧ o.above = names.map Value.string ∧
          e = refusal ("/".intercalate ("src" :: names)) o.key := by
  have hread : (parseTree m).outcome = (declare rootName rootName (.mapping d)).outcome := by
    rw [outcome_parseTree, ← body_iff.mp hd]
  have hsettled := settled_declare (.mapping d) rootName rootName
  rw [hread]
  exact ⟨hsettled.exists_ok_iff, yields_declare_mirrors (hd.keysDistinct hm) rootName rootName,
    hsettled.error_iff⟩

/-- The number is refused before the names that come later, and lists are not looked into. -/
theorem nested_grammar_sample :
    let refused : Entries :=
      [(.string "main.rs", .string "entry point"),
        (.string "lib",
          .mapping [(.scalar (.integer 42), .string ""), (.string "a/b", .string "")]),
        (.string "..", .mapping [])]
    let accepted : Entries :=
      [(.string "src", .mapping [(.string "mod.rs", .string "")]),
        (.string "count", .sequence [.mapping [(.scalar (.integer 42), .string "")]])]
    Body [(.string "src", .mapping refused)] refused ∧ Body accepted accepted ∧
      (parseTree [(.string "src", .mapping refused)]).outcome = .error (.nonStringKey "src/lib") ∧
      ∃ t, (parseTree accepted).outcome = .ok t ∧ t.name = "src" ∧
        Mirrors (.mapping accepted) t := by
  intro refused accepted
  have hrefused : Body [(.string "src", .mapping refused)] refused := .lone refused
  have haccepted : Body accepted accepted := .whole (by simp [accepted])
  have hkeys : (Value.mapping [(.string "src", .mapping refused)]).KeysDistinct := by
    simp [refused, Entries.Distinct]
  have hkeys' : (Value.mapping accepted).KeysDistinct := by simp [accepted, Entries.Distinct]
  refine ⟨hrefused, haccepted, ?_, ?_⟩
  · obtain ⟨_, _, herror⟩ := nested_grammar hrefused hkeys
    exact (herror _).mpr ⟨[⟨[], .string "main.rs"⟩, ⟨[], .string "lib"⟩],
      ⟨[.string "lib"], .scalar (.integer 42)⟩, _, ["lib"], rfl, by decide, by decide, rfl, rfl⟩
  · obtain ⟨hread, hmirrors, _⟩ := nested_grammar haccepted hkeys'
    obtain ⟨t, ht⟩ := hread.mpr (by decide)
    exact ⟨t, ht, hmirrors t ht⟩

end Specification.Nested

end LayoutCheck
