/-!
# Shortest decimals

Of the decimals that are read back as a given binary number, the one with the fewest digits is
written, and of several with that many digits the one nearest to the number. A number is a
significand times a power of two, and the reals that are read back as it are those between the
midpoints to its two neighbours, with the midpoints themselves if the significand is even.

All of it is computed on natural numbers: the number and the bounds of its interval are brought to a
common denominator, and the decimals of a given exponent are the multiples of a power of ten.
-/

namespace TensorLoom.Decimal

/-- A positive number with the interval of the reals that are read back as it, as numerators over
one denominator. -/
structure Rounding where
  low : Nat
  exact : Nat
  high : Nat
  denominator : Nat
  /-- Whether the bounds are read back as the number, too. -/
  closed : Bool

namespace Rounding

/-- The interval of `significand * 2 ^ exponent`. The neighbour below is only half as far away if
the significand is the least of its binary order, unless the exponent is the least there is. -/
def ofBinary (significand : Nat) (exponent : Int) (isPower : Bool) : Rounding :=
  let up := Nat.pow 2 exponent.toNat
  let below := if isPower then 1 else 2
  { low := (4 * significand - below) * up
    exact := 4 * significand * up
    high := (4 * significand + 2) * up
    denominator := 4 * Nat.pow 2 (-exponent).toNat
    closed := significand % 2 = 0 }

/-- Whether a fraction is read back as the number. -/
def holds (r : Rounding) (numerator denominator : Nat) : Bool :=
  let x := numerator * r.denominator
  let low := r.low * denominator
  let high := r.high * denominator
  if r.closed then low ≤ x && x ≤ high else low < x && x < high

/-- The multiple of `10 ^ exponent` that is read back as the number and nearest to it, if there is
one: one of the two multiples beside the number. -/
def multiple? (r : Rounding) (exponent : Int) : Option Nat :=
  let unit := Nat.pow 10 exponent.toNat
  let parts := Nat.pow 10 (-exponent).toNat
  let below := r.exact * parts / (r.denominator * unit)
  let above := below + 1
  let fits (n : Nat) : Bool := 0 < n && r.holds (n * unit) parts
  let distance := 2 * (r.exact * parts) - 2 * below * (r.denominator * unit)
  let isNearer := distance < r.denominator * unit ||
    (distance = r.denominator * unit && below % 2 = 0)
  match fits below, fits above with
  | true, true => some (if isNearer then below else above)
  | true, false => some below
  | false, true => some above
  | false, false => none

/-- Go down from an exponent to the first one with a multiple that is read back. -/
def search (r : Rounding) (exponent : Int) : Nat → Nat × Int
  | 0 => (0, exponent)
  | steps + 1 =>
    match r.multiple? exponent with
    | some n => (n, exponent)
    | none => r.search (exponent - 1) steps

end Rounding

/-- The shortest decimal of a positive single-precision number, as digits and an exponent of ten.
All of these numbers lie below `10 ^ 39`, and even the smallest has a multiple of `10 ^ (-45)` that
is read back as it, so the exponents from 40 down to -59 are enough. -/
def shortest (r : Rounding) : Nat × Int :=
  r.search 40 100

/-- A decimal without an exponent: the digits with the point where it belongs, or with zeros up to
it. -/
def positional (digits : Nat) (exponent : Int) : String :=
  let ds := toString digits
  if 0 ≤ exponent then ds ++ String.ofList (List.replicate exponent.toNat '0')
  else
    let places := (-exponent).toNat
    let padded := String.ofList (List.replicate (places + 1 - ds.length) '0') ++ ds
    let whole := padded.length - places
    (padded.take whole).toString ++ "." ++ (padded.drop whole).toString

/-- The least significand of a normal single-precision number, `2 ^ 23`. -/
def leastNormal : Nat := 8388608

/-- A single-precision number: its shortest decimal, without an exponent. Its bits are a sign, eight
digits of exponent and twenty-three of significand. -/
def text (x : Float32) : String :=
  if x.isNaN then "NaN"
  else
    let bits := x.toBits.toNat
    let sign := if bits / leastNormal < 256 then "" else "-"
    let exponent : Nat := bits / leastNormal % 256
    let fraction : Nat := bits % leastNormal
    if exponent = 255 then sign ++ "inf"
    else if exponent = 0 ∧ fraction = 0 then sign ++ "0"
    else
      let r := if exponent = 0 then Rounding.ofBinary fraction (-149) false
        else Rounding.ofBinary (leastNormal + fraction) (exponent - 150)
          (fraction = 0 && exponent ≠ 1)
      let (digits, scale) := shortest r
      sign ++ positional digits scale

end TensorLoom.Decimal
