import LayoutCheck.Yaml.Digits
import LayoutCheck.Yaml.Value

/-!
What a scalar means.

Text that is not quoted stands for null, a truth value, an integer of signed 64 bits or a number of
the double format when it has the form of one, and for itself otherwise. A tag of the core schema
fixes which of these is meant.
-/

namespace LayoutCheck.Yaml

/-- The integer that the text writes, if it fits in signed 64 bits. -/
def signed64? (base : Nat) (cs : List Char) : Option Int :=
  (signed? base cs).filter (fun n => -0x8000000000000000 ≤ n ∧ n < 0x8000000000000000)

/-- A plus may stand before a decimal integer with a sign of its own. -/
def integer? : List Char → Option Int
  | '0' :: 'x' :: cs => signed64? 16 cs
  | '0' :: 'o' :: cs => signed64? 8 cs
  | '+' :: cs => signed64? 10 cs
  | cs => signed64? 10 cs

/-- A decimal number: an integer times a power of ten. -/
structure Decimal where
  negative : Bool
  mantissa : Nat
  exponent : Int
  deriving DecidableEq, Repr

namespace Decimal

/-- Reads what follows the sign and the digits on both sides of the point. -/
def exponent? : List Char → Option Int
  | [] => some 0
  | c :: cs => if c = 'e' ∨ c = 'E' then signed? 10 cs else none

/-- Reads digits with an optional point, before, between or after them, and an optional exponent. -/
def ofChars? (cs : List Char) : Option Decimal := do
  let (negative, cs) := takeSign cs
  let whole := cs.takeWhile Char.isDigit
  let rest := cs.dropWhile Char.isDigit
  let (fraction, rest) :=
    match rest with
    | '.' :: rest => (rest.takeWhile Char.isDigit, rest.dropWhile Char.isDigit)
    | _ => ([], rest)
  let mantissa ← natural? 10 (whole ++ fraction)
  let exponent ← exponent? rest
  return ⟨negative, mantissa, exponent - fraction.length⟩

def infinityBits : UInt64 := 0x7ff0000000000000

def signBit : UInt64 := 0x8000000000000000

/--
The nearest number of the double format without its sign. The power of ten is only worked out where
the number is neither too large nor too small for the format.
-/
def magnitudeBits (d : Decimal) : UInt64 :=
  let size : Int := (Nat.repr d.mantissa).length + d.exponent
  if d.mantissa = 0 ∨ size < -330 then 0
  else if 330 < size then infinityBits
  else (Float.ofScientific d.mantissa (d.exponent < 0) d.exponent.natAbs).toBits

/-- The nearest number of the double format; there is one zero. -/
def toBits (d : Decimal) : UInt64 :=
  let bits := d.magnitudeBits
  if d.negative ∧ bits ≠ 0 then bits ||| signBit else bits

end Decimal

/-- The bits that stand for every text that is not a number in the double format. -/
def notANumberBits : UInt64 := 0x7ff8000000000000

def infinityTexts : List String := [".inf", ".Inf", ".INF"]

def notANumberTexts : List String := [".nan", ".NaN", ".NAN"]

/-- The number of the double format that the text writes. -/
def float? (text : String) : Option UInt64 :=
  let (negative, cs) := takeSign text.toList
  if notANumberTexts.contains text then some notANumberBits
  else if infinityTexts.contains (String.ofList cs) then
    some (if negative then Decimal.infinityBits ||| Decimal.signBit else Decimal.infinityBits)
  else (Decimal.ofChars? text.toList).map (·.toBits)

def boolean? : String → Option Bool
  | "true" => some true
  | "false" => some false
  | _ => none

def nullTexts : List String := ["~", "null", "NULL"]

namespace Scalar

/-- The first of these that the text has the form of. -/
def ofPlain (text : String) : Scalar :=
  if nullTexts.contains text then null
  else if let some b := boolean? text then boolean b
  else if let some n := integer? text.toList then integer n
  else if let some x := float? text then float x
  else string text

/-- The value of the kind that a core schema tag names; it may have no value of that kind. -/
def ofTagged (suffix text : String) : Scalar :=
  match suffix with
  | "str" => string text
  | "bool" => ((boolean? text).map boolean).getD invalid
  | "int" => ((signed64? 10 text.toList).map integer).getD invalid
  | "float" => ((float? text).map float).getD invalid
  | "null" => if text = "~" ∨ text = "null" then null else invalid
  | _ => invalid

end Scalar

end LayoutCheck.Yaml
