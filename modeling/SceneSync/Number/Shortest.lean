import SceneSync.Number.Binary64

/-!
# Shortest decimals

A number of binary64 is written with the fewest digits that read back as the same
number, and among those with the digits nearest to it. `literal` puts them
between points, zeros and an exponent as messages show them.
-/

namespace SceneSync.Number

/-- Digits and the place of the point: `0.digits * 10 ^ point`. -/
structure Decimal where
  digits : List Char
  point : Int
  deriving DecidableEq, Repr

/-- The numbers that read back as `significand * 2 ^ exponent`, over a common
denominator: the value, the reach below and above it, and whether the ends of the
range are in it. -/
structure Range where
  value : Nat
  below : Nat
  above : Nat
  den : Nat
  closed : Bool

/-- The range of a positive number, in quarters of its last place. Below a power of
two the neighbours are closer. -/
def Range.of (significand : Nat) (exponent : Int) : Range :=
  let narrow := significand == Nat.pow 2 52 && Binary64.minExponent < exponent
  let unit := scale 2 1 4 exponent
  ⟨4 * significand * unit.1, (if narrow then 1 else 2) * unit.1, 2 * unit.1, unit.2,
    significand % 2 == 0⟩

/-- Whether `num / den` lies in the range. -/
def Range.contains (r : Range) (num den : Nat) : Bool :=
  let x := num * r.den
  let low := (r.value - r.below) * den
  let high := (r.value + r.above) * den
  if r.closed then low ≤ x && x ≤ high else low < x && x < high

/-- The least `p` such that the quotient is below `10 ^ p`. -/
def decimalPlaces (num den : Nat) : Int :=
  let k : Int := ((toString num).length : Int) - (toString den).length
  let r := scale 10 num den (-k)
  if r.1 < r.2 then k else k + 1

/-- The neighbours of the value among the multiples of `10 ^ unit`, by their factors:
the nearer of those that lie in the range, the even one of two that are equally near. -/
def nearestOn (r : Range) (unit : Int) : Option Nat :=
  let grid := scale 10 1 1 unit
  let low := r.value * grid.2 / (r.den * grid.1)
  let inside (k : Nat) : Bool := r.contains (k * grid.1) grid.2
  let twice := 2 * r.value * grid.2
  let middle := (2 * low + 1) * grid.1 * r.den
  let nearLow := twice < middle || (twice == middle && low % 2 == 0)
  if inside low && (nearLow || !inside (low + 1)) then some low
  else if inside (low + 1) then some (low + 1)
  else none

/-- Tries `k`, `k + 1`, … digits. -/
def shortestFrom (r : Range) (places : Int) : Nat → Nat → Option Decimal
  | 0, _ => none
  | fuel + 1, k =>
    match nearestOn r (places - k) with
    | some n =>
      let text := (toString n).toList
      let digits := (text.reverse.dropWhile (· == '0')).reverse
      some ⟨digits, places - k + text.length⟩
    | none => shortestFrom r places fuel (k + 1)

/-- Seventeen digits are enough for every number. -/
def shortest (significand : Nat) (exponent : Int) : Decimal :=
  let r := Range.of significand exponent
  let places := decimalPlaces r.value r.den
  (shortestFrom r places 17 1).getD ⟨['0'], 1⟩

def zeros (n : Int) : List Char := List.replicate n.toNat '0'

def exponentText (e : Int) : List Char :=
  let n := toString e.natAbs
  (if e < 0 then '-' else '+') :: (if n.length < 2 then '0' :: n.toList else n.toList)

/-- A decimal from 0.0001 up to below 10^16 is written without an exponent and with a
digit on either side of the point; any other has one digit before the point. -/
def Decimal.literal (d : Decimal) : List Char :=
  if -4 < d.point && d.point ≤ 16 then
    if d.point ≤ 0 then '0' :: '.' :: zeros (-d.point) ++ d.digits
    else
      let whole := d.digits.take d.point.toNat
      let fraction := d.digits.drop d.point.toNat
      whole ++ zeros (d.point - d.digits.length) ++ '.' ::
        (if fraction.isEmpty then ['0'] else fraction)
  else
    let fraction := d.digits.drop 1
    d.digits.take 1 ++ (if fraction.isEmpty then [] else '.' :: fraction) ++ 'e' ::
      exponentText (d.point - 1)

def Binary64.literal : Binary64 → String
  | nan => "nan"
  | infinity negative => if negative then "-inf" else "inf"
  | finite negative m e =>
    let digits := if m == 0 then "0.0".toList else (shortest m e).literal
    String.ofList (if negative then '-' :: digits else digits)

end SceneSync.Number
