/-!
Text of a number of the double format with one decimal place.

The number is taken apart into an integer times a power of two, and tenths are counted in integers,
so the text is that of the exact value; a value half way between two tenths goes to the even one.
-/

namespace LayoutCheck

/-- The quotient rounded to the nearest integer, half way to the even one. -/
def roundHalfEven (num den : Nat) : Nat :=
  let q := num / den
  let r := num % den
  if 2 * r < den then q
  else if den < 2 * r then q + 1
  else if q % 2 = 0 then q
  else q + 1

/-- A finite number that is not negative, as an integer times a power of two. -/
structure Dyadic where
  mantissa : Nat
  exponent : Int
  deriving DecidableEq, Repr

namespace Dyadic

/-- Reads the fields of the double format; the sign is left out. -/
def ofBits (bits : UInt64) : Dyadic :=
  let n := bits.toNat
  let fraction : Nat := n % (1 <<< 52)
  let biased : Nat := (n >>> 52) % (1 <<< 11)
  if biased = 0 then ⟨fraction, -1074⟩ else ⟨fraction + (1 <<< 52), (biased : Int) - 1075⟩

/-- How many tenths the number has, rounded to the nearest. -/
def tenths (d : Dyadic) : Nat :=
  match d.exponent with
  | .ofNat e => (d.mantissa * 10) <<< e
  | .negSucc e => roundHalfEven (d.mantissa * 10) (1 <<< (e + 1))

end Dyadic

/-- The number with one digit after the point. -/
def tenthsText (x : Float) : String :=
  let t := (Dyadic.ofBits x.toBits).tenths
  Nat.repr (t / 10) ++ "." ++ Nat.repr (t % 10)

end LayoutCheck
