/-!
Values of a YAML document.

A mapping keeps its entries in order. `enter` gives a key a value: a key that has one loses its
place to the new entry, which comes last. So the keys of a mapping that `enter` builds are distinct
(`distinct_enter`).
-/

namespace LayoutCheck.Yaml

/--
A value without parts. A number of the double format is kept as its bits; `invalid` stands for a
node that has no value.
-/
inductive Scalar where
  | null
  | boolean (value : Bool)
  | integer (value : Int)
  | float (bits : UInt64)
  | string (text : String)
  | invalid
  deriving DecidableEq, Repr

/-- A value; `tagged` is one with a tag from outside the core schema. -/
inductive Value where
  | scalar (value : Scalar)
  | sequence (items : List Value)
  | mapping (entries : List (Value × Value))
  | tagged (handle suffix : String) (value : Value)
  deriving Repr

namespace Value

@[match_pattern] abbrev string (text : String) : Value := scalar (.string text)

mutual

protected def decEq : (a b : Value) → Decidable (a = b)
  | scalar x, scalar y => if h : x = y then isTrue (by rw [h]) else isFalse (by simpa using h)
  | sequence xs, sequence ys =>
    match Value.decEqItems xs ys with
    | isTrue h => isTrue (by rw [h])
    | isFalse h => isFalse (by simpa using h)
  | mapping xs, mapping ys =>
    match Value.decEqEntries xs ys with
    | isTrue h => isTrue (by rw [h])
    | isFalse h => isFalse (by simpa using h)
  | tagged p s x, tagged q t y =>
    match Value.decEq x y with
    | isTrue hv =>
      if h : p = q ∧ s = t then isTrue (by rw [h.1, h.2, hv])
      else isFalse (by intro e; injection e with hp hs; exact h ⟨hp, hs⟩)
    | isFalse hv => isFalse (by simp [hv])
  | scalar _, sequence _ | scalar _, mapping _ | scalar _, tagged .. => isFalse (by simp)
  | sequence _, scalar _ | sequence _, mapping _ | sequence _, tagged .. => isFalse (by simp)
  | mapping _, scalar _ | mapping _, sequence _ | mapping _, tagged .. => isFalse (by simp)
  | tagged .., scalar _ | tagged .., sequence _ | tagged .., mapping _ => isFalse (by simp)

protected def decEqItems : (xs ys : List Value) → Decidable (xs = ys)
  | [], [] => isTrue rfl
  | [], _ :: _ => isFalse (by simp)
  | _ :: _, [] => isFalse (by simp)
  | x :: xs, y :: ys =>
    match Value.decEq x y, Value.decEqItems xs ys with
    | isTrue h, isTrue hs => isTrue (by rw [h, hs])
    | isFalse h, _ => isFalse (by simp [h])
    | _, isFalse hs => isFalse (by simp [hs])

protected def decEqEntries : (xs ys : List (Value × Value)) → Decidable (xs = ys)
  | [], [] => isTrue rfl
  | [], _ :: _ => isFalse (by simp)
  | _ :: _, [] => isFalse (by simp)
  | x :: xs, y :: ys =>
    match Value.decEqEntry x y, Value.decEqEntries xs ys with
    | isTrue h, isTrue hs => isTrue (by rw [h, hs])
    | isFalse h, _ => isFalse (by simp [h])
    | _, isFalse hs => isFalse (by simp [hs])

protected def decEqEntry : (x y : Value × Value) → Decidable (x = y)
  | (k, v), (l, w) =>
    match Value.decEq k l, Value.decEq v w with
    | isTrue hk, isTrue hv => isTrue (by rw [hk, hv])
    | isFalse hk, _ => isFalse (by simp [hk])
    | _, isFalse hv => isFalse (by simp [hv])

end

instance : DecidableEq Value := Value.decEq

end Value

/-- The entries of a mapping, in order. -/
abbrev Entries := List (Value × Value)

namespace Entries

/-- The value of the key. -/
def value? (entries : Entries) (key : Value) : Option Value :=
  (entries.find? (fun e => e.1 = key)).map (·.2)

/-- Gives the key a value, as the last entry; an entry that the key had is dropped. -/
def enter (key value : Value) (entries : Entries) : Entries :=
  entries.filter (fun e => e.1 ≠ key) ++ [(key, value)]

/-- No key occurs twice. -/
def Distinct (entries : Entries) : Prop := entries.Pairwise (fun a b => a.1 ≠ b.1)

theorem distinct_nil : Distinct [] := .nil

theorem distinct_enter {entries : Entries} (h : entries.Distinct) (key value : Value) :
    (enter key value entries).Distinct := by
  refine List.pairwise_append.2 ⟨h.sublist List.filter_sublist, by simp, ?_⟩
  intro e he d hd
  obtain rfl : d = (key, value) := by simpa using hd
  simpa using (List.mem_filter.1 he).2

end Entries

end LayoutCheck.Yaml
