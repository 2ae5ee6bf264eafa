/-!
# Splices

An edit puts bytes in place of a range. Edits are applied one by one from the
back to the front, so that the ranges of those to come keep their places.
-/

namespace SceneSync

structure Edit where
  start : Int
  stop : Int
  replacement : List UInt8
  deriving DecidableEq, Repr

namespace Edit

/-- A position among `size` bytes: a negative one counts from the end, and one out
of range is the nearest end. -/
def clamp (size : Nat) (i : Int) : Nat :=
  if i < 0 then (i + size).toNat else min i.toNat size

/-- Puts the replacement in place of the range. A range that ends before its start
is empty. -/
def apply (bytes : List UInt8) (e : Edit) : List UInt8 :=
  let a := clamp bytes.length e.start
  let b := max a (clamp bytes.length e.stop)
  bytes.take a ++ e.replacement ++ bytes.drop b

/-- Whether `e` is applied no later than `f`: the later start first, then the later
end. -/
def notBefore (e f : Edit) : Bool :=
  f.start < e.start || (f.start == e.start && f.stop ≤ e.stop)

/-- Applies the edits, those of one range in the order given. -/
def applyAll (bytes : List UInt8) (edits : List Edit) : List UInt8 :=
  (edits.mergeSort notBefore).foldl apply bytes

end Edit

end SceneSync
