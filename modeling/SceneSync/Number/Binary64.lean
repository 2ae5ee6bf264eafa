/-!
# Binary floating point

The numbers of binary64, as integers: a sign, a significand below 2^53 and an
exponent from -1074 to 971. `ofDecimal` is the nearest of them to a decimal, the
even one of two.
-/

namespace SceneSync.Number

inductive Binary64 where
  | nan
  | infinity (negative : Bool)
  /-- the value is `significand * 2 ^ exponent` -/
  | finite (negative : Bool) (significand : Nat) (exponent : Int)
  deriving DecidableEq, Repr

/-- A quotient scaled by a power of a base, as a quotient again. -/
def scale (base num den : Nat) (e : Int) : Nat × Nat :=
  if 0 ≤ e then (num * base.pow e.toNat, den) else (num, den * base.pow (-e).toNat)

/-- The nearest integer to a quotient, the even one of two. -/
def roundEven (num den : Nat) : Nat :=
  let q := num / den
  let r := 2 * (num % den)
  if r < den || (r == den && q % 2 == 0) then q else q + 1

/-- The greatest power of two that is no greater than a positive quotient. -/
def floorLog2 (num den : Nat) : Int :=
  let k : Int := (num.log2 : Int) - den.log2
  let r := scale 2 num den (-k)
  if r.1 < r.2 then k - 1 else k

namespace Binary64

def minExponent : Int := -1074

def maxExponent : Int := 971

def zero (negative : Bool) : Binary64 := finite negative 0 minExponent

/-- The nearest number to a positive quotient. -/
def ofQuotient (negative : Bool) (num den : Nat) : Binary64 :=
  let e := max (floorLog2 num den - 52) minExponent
  let r := scale 2 num den (-e)
  let m := roundEven r.1 r.2
  let (m, e) := if m == Nat.pow 2 53 then (Nat.pow 2 52, e + 1) else (m, e)
  if maxExponent < e then infinity negative else finite negative m e

/-- The nearest number to `digits * 10 ^ exponent`, where `digits` has `length`
digits. What is far out of range is told before any power is computed. -/
def ofDecimal (negative : Bool) (digits length : Nat) (exponent : Int) : Binary64 :=
  if digits == 0 || length + exponent < -330 then zero negative
  else if 310 < length + exponent then infinity negative
  else
    let r := scale 10 digits 1 exponent
    ofQuotient negative r.1 r.2

def isZero : Binary64 → Bool
  | finite _ 0 _ => true
  | _ => false

end Binary64

end SceneSync.Number
