/-!
# Integers in text

How a text is read as an integer: blanks around it, a sign, and decimal digits of
any script with single underscores between them.
-/

namespace SceneSync.Text

/-- The digits zero of the scripts that have decimal digits; the others follow each
of them in order. -/
def zeroDigits : List Nat :=
  [0x30, 0x660, 0x6F0, 0x7C0, 0x966, 0x9E6, 0xA66, 0xAE6, 0xB66, 0xBE6, 0xC66, 0xCE6, 0xD66,
   0xDE6, 0xE50, 0xED0, 0xF20, 0x1040, 0x1090, 0x17E0, 0x1810, 0x1946, 0x19D0, 0x1A80, 0x1A90,
   0x1B50, 0x1BB0, 0x1C40, 0x1C50, 0xA620, 0xA8D0, 0xA900, 0xA9D0, 0xA9F0, 0xAA50, 0xABF0,
   0xFF10, 0x104A0, 0x10D30, 0x11066, 0x110F0, 0x11136, 0x111D0, 0x112F0, 0x11450, 0x114D0,
   0x11650, 0x116C0, 0x11730, 0x118E0, 0x11950, 0x11C50, 0x11D50, 0x11DA0, 0x16A60, 0x16AC0,
   0x16B50, 0x1D7CE, 0x1D7D8, 0x1D7E2, 0x1D7EC, 0x1D7F6, 0x1E140, 0x1E2F0, 0x1E950, 0x1FBF0]

def digitValue? (c : Char) : Option Nat :=
  (zeroDigits.find? fun z => z ≤ c.toNat && c.toNat ≤ z + 9).map (c.toNat - ·)

/-- A blank around an integer. -/
def isNumberBlank (c : Char) : Bool :=
  let n := c.toNat
  (9 ≤ n && n ≤ 13) || n == 32 || n == 0x85 || n == 0xA0 || n == 0x1680 ||
  (0x2000 ≤ n && n ≤ 0x200A) || n == 0x2028 || n == 0x2029 || n == 0x202F ||
  n == 0x205F || n == 0x3000

def maxIntegerDigits : Nat := 4300

/-- Digits with single underscores between them; `afterDigit` holds behind a digit. -/
def digitsOf? : List Char → Bool → Option (List Nat)
  | [], afterDigit => if afterDigit then some [] else none
  | c :: cs, afterDigit =>
    if c == '_' then if afterDigit then digitsOf? cs false else none
    else match digitValue? c with
      | some d => (digitsOf? cs true).map (d :: ·)
      | none => none

def toInt? (text : String) : Option Int :=
  let trimmed := ((text.toList.dropWhile isNumberBlank).reverse.dropWhile isNumberBlank).reverse
  let (negative, body) := match trimmed with
    | '-' :: cs => (true, cs)
    | '+' :: cs => (false, cs)
    | cs => (false, cs)
  match digitsOf? body false with
  | some ds =>
    if maxIntegerDigits < ds.length then none
    else
      let n : Nat := ds.foldl (fun n d => 10 * n + d) 0
      some (if negative then -(n : Int) else n)
  | none => none

end SceneSync.Text
