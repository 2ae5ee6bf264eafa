import SceneSync.Text.Printable

/-!
# Quoted text

Two ways to write text between quotes. `literal` is for messages: it keeps
printable characters, and takes double quotes only for a text with apostrophes
and no double quote. `asciiString` is the form of a string in JSON that holds
printable ASCII only, so that no text can end its line or its quotes early.
-/

namespace SceneSync.Text

def hexDigit (n : Nat) : Char :=
  if n < 10 then Char.ofNat (48 + n) else Char.ofNat (87 + n)

/-- The last `k` hexadecimal digits of a number. -/
def hex : Nat → Nat → List Char
  | 0, _ => []
  | k + 1, n => hex k (n / 16) ++ [hexDigit (n % 16)]

theorem hex_length (k n : Nat) : (hex k n).length = k := by
  induction k generalizing n with
  | zero => rfl
  | succ k ih => simp [hex, ih]

/-- A character of a quoted literal. -/
def literalChar (quote c : Char) : List Char :=
  if c == quote || c == '\\' then ['\\', c]
  else if c == '\n' then ['\\', 'n']
  else if c == '\r' then ['\\', 'r']
  else if c == '\t' then ['\\', 't']
  else if c.toNat < 0x7F && 0x20 ≤ c.toNat then [c]
  else if c.toNat < 0x100 then
    if isPrintable c then [c] else '\\' :: 'x' :: hex 2 c.toNat
  else if isPrintable c then [c]
  else if c.toNat < 0x10000 then '\\' :: 'u' :: hex 4 c.toNat
  else '\\' :: 'U' :: hex 8 c.toNat

def apostrophe : Char := Char.ofNat 39

def literal (s : String) : String :=
  let cs := s.toList
  let quote := if cs.contains apostrophe && !cs.contains '"' then '"' else apostrophe
  String.ofList (quote :: cs.flatMap (literalChar quote) ++ [quote])

/-- The two halves of a character above U+FFFF, in units of sixteen bits. -/
def surrogates (n : Nat) : Nat × Nat :=
  (0xD800 + (n - 0x10000) / 0x400, 0xDC00 + (n - 0x10000) % 0x400)

def unicodeEscape (n : Nat) : List Char := '\\' :: 'u' :: hex 4 n

def asciiChar (c : Char) : List Char :=
  if c == '"' then ['\\', '"']
  else if c == '\\' then ['\\', '\\']
  else if c == '\n' then ['\\', 'n']
  else if c == '\r' then ['\\', 'r']
  else if c == '\t' then ['\\', 't']
  else if c.toNat == 12 then ['\\', 'f']
  else if c.toNat == 8 then ['\\', 'b']
  else if 0x20 ≤ c.toNat && c.toNat ≤ 0x7E then [c]
  else if c.toNat < 0x10000 then unicodeEscape c.toNat
  else
    unicodeEscape (surrogates c.toNat).1 ++ unicodeEscape (surrogates c.toNat).2

def asciiString (cs : List Char) : List Char := '"' :: cs.flatMap asciiChar ++ ['"']

end SceneSync.Text
