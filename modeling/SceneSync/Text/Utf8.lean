import SceneSync.Text.Quoted

/-!
# UTF-8

`decode` reads bytes as UTF-8 and refuses overlong forms, surrogates and what
lies above U+10FFFF. The cause of a refusal names the first bytes that are no
character: the longest run that could have started one.
-/

namespace SceneSync.Text

inductive BadBytes where
  | invalidStart
  | invalidContinuation
  | unexpectedEnd
  deriving DecidableEq, Repr

/-- A run of `size` bytes at `start`, the first of them `byte`, that is no
character. -/
structure DecodeError where
  byte : UInt8
  start : Nat
  size : Nat
  reason : BadBytes
  deriving DecidableEq, Repr

namespace DecodeError

def cause : BadBytes → String
  | .invalidStart => "invalid start byte"
  | .invalidContinuation => "invalid continuation byte"
  | .unexpectedEnd => "unexpected end of data"

def message (e : DecodeError) : String :=
  let subject :=
    if e.size == 1 then
      "byte 0x" ++ String.ofList (hex 2 e.byte.toNat) ++ " in position " ++ toString e.start
    else
      "bytes in position " ++ toString e.start ++ "-" ++ toString (e.start + e.size - 1)
  "'utf-8' codec can't decode " ++ subject ++ ": " ++ cause e.reason

end DecodeError

def isContinuation (b : UInt8) : Bool := 0x80 ≤ b && b ≤ 0xBF

/-- Whether the second byte may follow a lead byte of two or more bytes. -/
def continues (lead second : UInt8) : Bool :=
  if lead == 0xE0 then 0xA0 ≤ second && second ≤ 0xBF
  else if lead == 0xED then 0x80 ≤ second && second ≤ 0x9F
  else if lead == 0xF0 then 0x90 ≤ second && second ≤ 0xBF
  else if lead == 0xF4 then 0x80 ≤ second && second ≤ 0x8F
  else isContinuation second

def low (b : UInt8) : Nat := b.toNat % 64

/-- The code point at the head of `bs` and the bytes after it. -/
def decodeOne (b : UInt8) (bs : List UInt8) (pos : Nat) :
    Except DecodeError (Nat × List UInt8) :=
  let bad (size : Nat) (reason : BadBytes) : Except DecodeError (Nat × List UInt8) :=
    .error ⟨b, pos, size, reason⟩
  if b < 0x80 then .ok (b.toNat, bs)
  else if b < 0xC2 || b > 0xF4 then bad 1 .invalidStart
  else match bs with
    | [] => bad 1 .unexpectedEnd
    | c :: cs =>
      if !continues b c then bad 1 .invalidContinuation
      else if b < 0xE0 then .ok (b.toNat % 32 * 64 + low c, cs)
      else match cs with
        | [] => bad 2 .unexpectedEnd
        | d :: ds =>
          if !isContinuation d then bad 2 .invalidContinuation
          else if b < 0xF0 then .ok ((b.toNat % 16 * 64 + low c) * 64 + low d, ds)
          else match ds with
            | [] => bad 3 .unexpectedEnd
            | e :: es =>
              if !isContinuation e then bad 3 .invalidContinuation
              else .ok (((b.toNat % 8 * 64 + low c) * 64 + low d) * 64 + low e, es)

theorem decodeOne_length {b : UInt8} {bs r : List UInt8} {pos n : Nat}
    (h : decodeOne b bs pos = .ok (n, r)) : r.length ≤ bs.length := by
  unfold decodeOne at h
  repeat' split at h
  all_goals try contradiction
  all_goals
    cases h
    grind

/-- Reads `bs`, which stand at byte `pos`. -/
def decodeFrom (bs : List UInt8) (pos : Nat) (done : List Char) :
    Except DecodeError (List Char) :=
  match bs with
  | [] => .ok done.reverse
  | b :: rest =>
    match h : decodeOne b rest pos with
    | .error e => .error e
    | .ok (n, r) =>
      have : r.length < rest.length + 1 := Nat.lt_succ_of_le (decodeOne_length h)
      decodeFrom r (pos + (rest.length + 1 - r.length)) (Char.ofNat n :: done)
termination_by bs.length

def decode (bs : List UInt8) : Except DecodeError (List Char) := decodeFrom bs 0 []

/-- As `decode`, without a byte order mark at the head; positions count from
behind it. -/
def decodeMarked : List UInt8 → Except DecodeError (List Char)
  | 0xEF :: 0xBB :: 0xBF :: bs => decode bs
  | bs => decode bs

def encode (cs : List Char) : List UInt8 := cs.flatMap String.utf8EncodeChar

end SceneSync.Text
