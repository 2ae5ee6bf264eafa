import SceneSync.Json.Value

/-!
# Reading JSON

`Json.read` reads one value with blanks around it. A text that is none is refused
at the first character that fits nowhere; a string without end is refused at its
opening quote. Besides the numbers of JSON there are `NaN` and the infinities.
Nesting and the length of integers are limited.
-/

namespace SceneSync.Json

inductive Reason where
  | expectingValue | expectingName | expectingColon | expectingComma | extraData
  | controlCharacter | badEscape | badUnicodeEscape | unterminatedString | byteOrderMark
  deriving DecidableEq, Repr

inductive ReadError where
  | unexpected (reason : Reason) (position line column : Nat)
  | integerTooLong (digits : Nat)
  | tooDeep
  deriving DecidableEq, Repr

def Reason.message : Reason → String
  | expectingValue => "Expecting value"
  | expectingName => "Expecting property name enclosed in double quotes"
  | expectingColon => "Expecting ':' delimiter"
  | expectingComma => "Expecting ',' delimiter"
  | extraData => "Extra data"
  | controlCharacter => "Invalid control character at"
  | badEscape => "Invalid \\escape"
  | badUnicodeEscape => "Invalid \\uXXXX escape"
  | unterminatedString => "Unterminated string starting at"
  | byteOrderMark => "Unexpected UTF-8 BOM (decode using utf-8-sig)"

def maxIntegerDigits : Nat := 4300

def maxNesting : Nat := 1000

def ReadError.message : ReadError → String
  | unexpected r p l c =>
    r.message ++ ": line " ++ toString l ++ " column " ++ toString c ++ " (char " ++
      toString p ++ ")"
  | integerTooLong n =>
    "Exceeds the limit (" ++ toString maxIntegerDigits ++
      " digits) for integer string conversion: value has " ++ toString n ++
      " digits; use sys.set_int_max_str_digits() to increase the limit"
  | tooDeep => "nested too deeply"

/-- Why reading stops, and the characters from there on. -/
inductive Stop where
  | unexpected (reason : Reason) (rest : List Char)
  | integerTooLong (digits : Nat)
  | tooDeep

abbrev Reading (α : Type) := Except Stop (α × List Char)

def refuse {α : Type} (r : Reason) (rest : List Char) : Except Stop α :=
  .error (.unexpected r rest)

def isBlank (c : Char) : Bool := c == ' ' || c == '\t' || c == '\n' || c == '\r'

def skipBlanks (cs : List Char) : List Char := cs.dropWhile isBlank

def isDigit (c : Char) : Bool := '0' ≤ c && c ≤ '9'

def digitValue (c : Char) : Nat := c.toNat - 48

def natOfDigits (cs : List Char) : Nat := cs.foldl (fun n c => 10 * n + digitValue c) 0

/-! ## Strings -/

def hexValue? (c : Char) : Option Nat :=
  if isDigit c then some (digitValue c)
  else if 'a' ≤ c && c ≤ 'f' then some (c.toNat - 87)
  else if 'A' ≤ c && c ≤ 'F' then some (c.toNat - 55)
  else none

/-- The number that four hexadecimal digits write. -/
def hexFour? : List Char → Option Nat
  | a :: b :: c :: d :: _ => do
    let a ← hexValue? a
    let b ← hexValue? b
    let c ← hexValue? c
    let d ← hexValue? d
    return ((a * 16 + b) * 16 + c) * 16 + d
  | _ => none

def isHighSurrogate (n : Nat) : Bool := 0xD800 ≤ n && n ≤ 0xDBFF

def isLowSurrogate (n : Nat) : Bool := 0xDC00 ≤ n && n ≤ 0xDFFF

/-- The character of a code point; half of a pair stands for no character. -/
def charOf (n : Nat) : Char :=
  if 0xD800 ≤ n && n ≤ 0xDFFF then Char.ofNat 0xFFFD else Char.ofNat n

/-- Reads on from behind `\u`. Something has to follow the digits. -/
def unicodeEscape (cs : List Char) : Reading Char :=
  let rest := cs.drop 4
  if rest.isEmpty then refuse .badUnicodeEscape ('u' :: cs)
  else match hexFour? cs with
    | none => refuse .badUnicodeEscape ('u' :: cs)
    | some n =>
      match rest with
      | '\\' :: 'u' :: ds =>
        if isHighSurrogate n && !(ds.drop 4).isEmpty then
          match hexFour? ds with
          | none => refuse .badUnicodeEscape ('u' :: ds)
          | some m =>
            if isLowSurrogate m then
              .ok (charOf ((n - 0xD800) * 0x400 + (m - 0xDC00) + 0x10000), ds.drop 4)
            else .ok (charOf n, rest)
        else .ok (charOf n, rest)
      | _ => .ok (charOf n, rest)

/-- Reads on from behind a backslash. -/
def escape : List Char → Reading Char
  | '"' :: cs => .ok ('"', cs)
  | '\\' :: cs => .ok ('\\', cs)
  | '/' :: cs => .ok ('/', cs)
  | 'b' :: cs => .ok (Char.ofNat 8, cs)
  | 'f' :: cs => .ok (Char.ofNat 12, cs)
  | 'n' :: cs => .ok ('\n', cs)
  | 'r' :: cs => .ok ('\r', cs)
  | 't' :: cs => .ok ('\t', cs)
  | 'u' :: cs => unicodeEscape cs
  | cs => refuse .badEscape ('\\' :: cs)

theorem unicodeEscape_length {cs r : List Char} {c : Char}
    (h : unicodeEscape cs = .ok (c, r)) : r.length ≤ cs.length := by
  have hd (n : Nat) (l : List Char) : (l.drop n).length ≤ l.length := by simp
  unfold unicodeEscape refuse at h
  simp only at h
  repeat' split at h
  all_goals simp only [reduceCtorEq, Except.ok.injEq, Prod.mk.injEq] at h
  all_goals obtain ⟨-, rfl⟩ := h
  all_goals try exact hd 4 cs
  rename_i ds heq _ _ _ _ _
  have h4 := congrArg List.length heq
  have h5 := hd 4 ds
  simp only [List.length_drop, List.length_cons] at h4 h5 ⊢
  omega

theorem escape_length {cs r : List Char} {c : Char} (h : escape cs = .ok (c, r)) :
    r.length ≤ cs.length := by
  unfold escape refuse at h
  split at h
  case h_9 => exact Nat.le_trans (unicodeEscape_length h) (Nat.le_succ _)
  case h_10 => simp only [reduceCtorEq] at h
  all_goals
    simp only [Except.ok.injEq, Prod.mk.injEq] at h
    obtain ⟨-, rfl⟩ := h
    exact Nat.le_succ _

/-- Reads on from inside a string, whose opening quote is the head of `opening`. -/
def stringTail (opening cs : List Char) (done : List Char) : Reading String :=
  match cs with
  | [] => refuse .unterminatedString opening
  | '"' :: ds => .ok (String.ofList done.reverse, ds)
  | ['\\'] => refuse .unterminatedString opening
  | '\\' :: d :: ds =>
    match h : escape (d :: ds) with
    | .error e => .error e
    | .ok (c, r) =>
      have : r.length < ds.length + 2 := Nat.lt_succ_of_le (escape_length h)
      stringTail opening r (c :: done)
  | c :: ds =>
    if c.toNat < 0x20 then refuse .controlCharacter (c :: ds)
    else stringTail opening ds (c :: done)
termination_by cs.length

/-! ## Numbers -/

/-- The digits of an exponent and its sign, if one stands here. -/
def exponent? (cs : List Char) : Option (Int × List Char) :=
  match cs with
  | e :: ds =>
    if e == 'e' || e == 'E' then
      let (negative, es) := match ds with
        | '-' :: es => (true, es)
        | '+' :: es => (false, es)
        | _ => (false, ds)
      let digits := es.takeWhile isDigit
      if digits.isEmpty then none
      else
        let n : Int := natOfDigits digits
        some (if negative then -n else n, es.drop digits.length)
    else none
  | [] => none

def fraction? (cs : List Char) : Option (List Char × List Char) :=
  match cs with
  | '.' :: ds =>
    let digits := ds.takeWhile isDigit
    if digits.isEmpty then none else some (digits, ds.drop digits.length)
  | _ => none

/-- The value of a number that has a fraction or an exponent. -/
def floatOf (negative : Bool) (whole fraction : List Char) (e : Int) : Json :=
  let digits := (whole ++ fraction).dropWhile (· == '0')
  .float (Number.Binary64.ofDecimal negative (natOfDigits digits) digits.length
    (e - fraction.length))

def number (cs : List Char) : Reading Json :=
  let (negative, ds) := match cs with
    | '-' :: ds => (true, ds)
    | _ => (false, cs)
  let whole := match ds with
    | '0' :: _ => ['0']
    | _ => ds.takeWhile isDigit
  if whole.isEmpty then refuse .expectingValue cs
  else
    let r := ds.drop whole.length
    match fraction? r with
    | some (f, s) =>
      match exponent? s with
      | some (e, t) => .ok (floatOf negative whole f e, t)
      | none => .ok (floatOf negative whole f 0, s)
    | none =>
      match exponent? r with
      | some (e, t) => .ok (floatOf negative whole [] e, t)
      | none =>
        if maxIntegerDigits < whole.length then .error (.integerTooLong whole.length)
        else
          let n : Int := natOfDigits whole
          .ok (.integer (if negative then -n else n), r)

/-! ## Values -/

def words : List (List Char × Json) :=
  [("null".toList, .null), ("true".toList, .bool true), ("false".toList, .bool false),
   ("NaN".toList, .float .nan), ("Infinity".toList, .float (.infinity false)),
   ("-Infinity".toList, .float (.infinity true))]

def word? (cs : List Char) : Option (Json × List Char) :=
  words.findSome? fun w => (w.1.isPrefixOf? cs).map (w.2, ·)

def word (cs : List Char) : Reading Json :=
  match word? cs with
  | some r => .ok r
  | none => number cs

/-- The items of an array up to its closing bracket. Each is read by `value`, and
`bound` is more than their number. -/
def items (value : List Char → Reading Json) :
    Nat → List Char → List Json → Except Stop (Json × List Char)
  | 0, cs, _ => refuse .expectingValue cs
  | bound + 1, cs, done => do
    let (v, r) ← value cs
    match skipBlanks r with
    | ']' :: s => return (.array (v :: done).reverse, s)
    | ',' :: s => items value bound (skipBlanks s) (v :: done)
    | s => refuse .expectingComma s

/-- The members of an object up to its closing brace. -/
def members (value : List Char → Reading Json) :
    Nat → List Char → List (String × Json) → Except Stop (Json × List Char)
  | 0, cs, _ => refuse .expectingName cs
  | bound + 1, cs, done => do
    match cs with
    | '"' :: ds =>
      let (k, r) ← stringTail cs ds []
      match skipBlanks r with
      | ':' :: s =>
        let (v, t) ← value (skipBlanks s)
        match skipBlanks t with
        | '\x7d' :: u => return (.object (insert done k v), u)
        | ',' :: u => members value bound (skipBlanks u) (insert done k v)
        | u => refuse .expectingComma u
      | s => refuse .expectingColon s
    | _ => refuse .expectingName cs

/-- Reads an array or an object, behind its opening mark. -/
def container (value : List Char → Reading Json) (isArray : Bool) (cs : List Char) :
    Reading Json :=
  let ds := skipBlanks cs
  match isArray, ds with
  | true, ']' :: r => .ok (.array [], r)
  | false, '\x7d' :: r => .ok (.object [], r)
  | true, _ => items value (ds.length + 1) ds []
  | false, _ => members value (ds.length + 1) ds []

def valueWith (nested : Bool → List Char → Reading Json) (cs : List Char) :
    Except Stop (Json × List Char) :=
  match cs with
  | '"' :: ds => do
    let (s, r) ← stringTail cs ds []
    return (.string s, r)
  | '[' :: ds => nested true ds
  | '\x7b' :: ds => nested false ds
  | _ => word cs

/-- Reads a value that nests at most `depth` containers. -/
def valueTo : Nat → List Char → Reading Json
  | 0 => valueWith fun _ _ => .error .tooDeep
  | depth + 1 => valueWith (container (valueTo depth))

def whole (cs : List Char) : Except Stop Json := do
  if cs.head? == some (Char.ofNat 0xFEFF) then refuse .byteOrderMark cs
  let (v, r) ← valueTo maxNesting (skipBlanks cs)
  match skipBlanks r with
  | [] => return v
  | s => refuse .extraData s

/-- The error for a stop in a text: its position counts characters from zero, its
line and column count from one. -/
def Stop.error (text : List Char) : Stop → ReadError
  | unexpected r rest =>
    let before := text.take (text.length - rest.length)
    let line := (before.filter (· == '\n')).length
    let column := (before.reverse.takeWhile (· != '\n')).length
    .unexpected r before.length (line + 1) (column + 1)
  | integerTooLong n => .integerTooLong n
  | tooDeep => .tooDeep

def read (text : List Char) : Except ReadError Json :=
  match whole text with
  | .ok v => .ok v
  | .error e => .error (e.error text)

end SceneSync.Json
