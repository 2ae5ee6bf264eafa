/-!
# Tokens of scripts

`Token.scan` reads one token from the characters left. Where the meaning of a
character hangs on what the grammar expects there, the token is the shortest
reading and the grammar reads on from the characters themselves: a slash that
opens a regular expression, the text of a template, the text between two markup
tags, and the second `>` of two closing type argument lists.
-/

namespace SceneSync.Script

/-- Blanks between tokens: the ASCII ones, the space separators, the two
separators of lines and paragraphs, the word joiner, the zero-width space and
the byte order mark. -/
def isBlank (c : Char) : Bool :=
  c == ' ' || (c.val ≥ 9 && c.val ≤ 13) || c.val == 0xA0 || c.val == 0x1680 ||
  (c.val ≥ 0x2000 && c.val ≤ 0x200B) || c.val == 0x2028 || c.val == 0x2029 ||
  c.val == 0x202F || c.val == 0x205F || c.val == 0x2060 || c.val == 0x3000 ||
  c.val == 0xFEFF

def isLineEnd (c : Char) : Bool :=
  c == '\n' || c == '\r' || c.val == 0x2028 || c.val == 0x2029

def isDigit (c : Char) : Bool := '0' ≤ c && c ≤ '9'

/-- Every character that is neither a control, a blank, a digit nor ASCII
punctuation may start a name. -/
def startsName (c : Char) : Bool :=
  !(c.val < 0x20 || isBlank c || isDigit c ||
    (":;`\"'@#.,|^&<=>+-*/\\%?!~()[]\x7b\x7d".toList.contains c))

def continuesName (c : Char) : Bool := startsName c || isDigit c

def isHexDigit (c : Char) : Bool :=
  isDigit c || ('a' ≤ c && c ≤ 'f') || ('A' ≤ c && c ≤ 'F')

inductive Token where
  /-- a name or a keyword, as it is written -/
  | name (text : String)
  /-- a name behind `#` -/
  | privateName
  | number
  | string
  | punct (text : String)
  /-- a `#!` line -/
  | hashbang
  /-- the end of the source -/
  | done
  | invalid
  deriving DecidableEq, Repr

/-- The width of a character in the UTF-8 encoding of the source. -/
def width (cs : List Char) : Nat := cs.foldl (fun n c => n + c.utf8Size) 0

/-- The characters after a line comment, which ends before its line end. -/
def afterLine : List Char → Nat → List Char × Nat
  | [], n => ([], n)
  | c :: cs, n => if isLineEnd c then (c :: cs, n) else afterLine cs (n + c.utf8Size)

/-- The characters after a block comment, and whether it spans lines. -/
def afterBlock : List Char → Nat → Bool → Option (List Char × Nat × Bool)
  | '*' :: '/' :: cs, n, line => some (cs, n + 2, line)
  | c :: cs, n, line => afterBlock cs (n + c.utf8Size) (line || isLineEnd c)
  | [], _, _ => none

theorem afterLine_length (cs : List Char) (n : Nat) :
    (afterLine cs n).1.length ≤ cs.length := by
  induction cs generalizing n with
  | nil => simp [afterLine]
  | cons c cs ih =>
    simp only [afterLine]
    split
    · simp
    · exact Nat.le_succ_of_le (ih _)

theorem afterBlock_length {cs ds : List Char} {n m : Nat} {a b : Bool}
    (h : afterBlock cs n a = some (ds, m, b)) : ds.length ≤ cs.length := by
  fun_induction afterBlock cs n a with
  | case1 => grind
  | case2 => grind
  | case3 => grind

structure Gap where
  rest : List Char
  width : Nat
  /-- a line ends in the gap, be it inside a comment -/
  newline : Bool
  /-- where the comments end that stand before the first line end outside of them -/
  remark : Nat

/-- Skips blanks and comments; `none` on a comment without end. `inLine` holds until
a line ends outside of the comments. -/
def skipGap (cs : List Char) (n : Nat) (newline inLine : Bool) (remark : Nat) : Option Gap :=
  match cs with
  | '/' :: '/' :: ds =>
    let r := afterLine ds (n + 2)
    have := afterLine_length ds (n + 2)
    skipGap r.1 r.2 newline inLine (if inLine then r.2 else remark)
  | '/' :: '*' :: ds =>
    match h : afterBlock ds (n + 2) newline with
    | some (es, m, b) =>
      have : es.length < ds.length + 2 := Nat.lt_of_le_of_lt (afterBlock_length h) (by omega)
      skipGap es m b inLine (if inLine then m else remark)
    | none => none
  | c :: ds =>
    if isBlank c then
      skipGap ds (n + c.utf8Size) (newline || isLineEnd c) (inLine && !isLineEnd c) remark
    else some ⟨c :: ds, n, newline, remark⟩
  | [] => some ⟨[], n, newline, remark⟩
termination_by cs.length

/-- Reads the hexadecimal digits of a `\u` escape, whose `\u` has been read: the
characters after them, and the byte position there when `n` is that of the first. -/
def unicodeEscape (cs : List Char) (n : Nat) : Option (List Char × Nat) :=
  match cs with
  | '{' :: c :: ds =>
    let digits := (c :: ds).takeWhile isHexDigit
    match (c :: ds).drop digits.length with
    | '}' :: es => if digits.isEmpty then none else some (es, n + digits.length + 2)
    | _ => none
  | a :: b :: c :: d :: ds =>
    if isHexDigit a && isHexDigit b && isHexDigit c && isHexDigit d then some (ds, n + 4)
    else none
  | _ => none

/-- Reads what follows a backslash in a string or a template. -/
def escape (cs : List Char) (n : Nat) : Option (List Char × Nat) :=
  match cs with
  | 'x' :: a :: b :: ds => if isHexDigit a && isHexDigit b then some (ds, n + 3) else none
  | 'x' :: _ => none
  | 'u' :: ds => unicodeEscape ds (n + 1)
  | '\r' :: '\n' :: ds => some (ds, n + 2)
  | c :: ds => some (ds, n + c.utf8Size)
  | [] => none

theorem unicodeEscape_length {cs ds : List Char} {n m : Nat}
    (h : unicodeEscape cs n = some (ds, m)) : ds.length ≤ cs.length := by
  unfold unicodeEscape at h
  split at h
  · simp only at h
    split at h
    · rename_i es he
      split at h
      · simp at h
      · simp only [Option.some.injEq, Prod.mk.injEq] at h
        obtain ⟨rfl, -⟩ := h
        have := congrArg List.length he
        simp only [List.length_drop, List.length_cons] at *
        omega
    · simp at h
  · split at h
    · simp only [Option.some.injEq, Prod.mk.injEq] at h
      obtain ⟨rfl, -⟩ := h
      simp only [List.length_cons]
      omega
    · simp at h
  · simp at h

theorem escape_length {cs ds : List Char} {n m : Nat} (h : escape cs n = some (ds, m)) :
    ds.length ≤ cs.length := by
  unfold escape at h
  split at h
  case h_3 => exact Nat.le_trans (unicodeEscape_length h) (by simp)
  all_goals try split at h
  all_goals first
    | simp only [reduceCtorEq] at h
    | (simp only [Option.some.injEq, Prod.mk.injEq] at h
       obtain ⟨rfl, -⟩ := h
       simp only [List.length_cons]
       omega)

/-- Reads a quoted string, whose opening quote has been read. -/
def afterString (quote : Char) (cs : List Char) (n : Nat) : Option (List Char × Nat) :=
  match cs with
  | [] => none
  | '\\' :: ds =>
    match h : escape ds (n + 1) with
    | some (es, m) =>
      have : es.length < ds.length + 1 := Nat.lt_succ_of_le (escape_length h)
      afterString quote es m
    | none => none
  | c :: ds =>
    if c == quote then some (ds, n + 1)
    else if c == '\n' || c == '\r' then none
    else afterString quote ds (n + c.utf8Size)
termination_by cs.length

/-- The characters after the next substitution mark of a template, or after its
closing quote; `true` for the former. `n` is the byte position of `cs`. -/
def templateChunk (cs : List Char) (n : Nat) : Option (List Char × Nat × Bool) :=
  match cs with
  | [] => none
  | '`' :: ds => some (ds, n + 1, false)
  | '$' :: '{' :: ds => some (ds, n + 2, true)
  | '\\' :: ds =>
    match h : escape ds (n + 1) with
    | some (es, m) =>
      have : es.length < ds.length + 1 := Nat.lt_succ_of_le (escape_length h)
      templateChunk es m
    | none => none
  | c :: ds => templateChunk ds (n + c.utf8Size)
termination_by cs.length

/-- The characters after a run of digits with single underscores between them. -/
def afterDigits (p : Char → Bool) : List Char → List Char
  | '_' :: c :: cs => if p c then afterDigits p cs else '_' :: c :: cs
  | c :: cs => if p c then afterDigits p cs else c :: cs
  | [] => []

def afterExponent : List Char → List Char
  | e :: s :: d :: cs =>
    if (e == 'e' || e == 'E') && (s == '+' || s == '-') && isDigit d then afterDigits isDigit cs
    else if (e == 'e' || e == 'E') && isDigit s then afterDigits isDigit (d :: cs)
    else e :: s :: d :: cs
  | [e, d] => if (e == 'e' || e == 'E') && isDigit d then [] else [e, d]
  | cs => cs

/-- The characters after a number, which starts with a digit or with a point
before a digit. -/
def afterNumber : List Char → List Char
  | '0' :: r :: d :: cs =>
    if (r == 'x' || r == 'X') && isHexDigit d then afterSuffix (afterDigits isHexDigit cs)
    else if (r == 'b' || r == 'B' || r == 'o' || r == 'O') && isDigit d then
      afterSuffix (afterDigits isDigit cs)
    else afterInteger ('0' :: r :: d :: cs)
  | cs => afterInteger cs
where
  afterSuffix : List Char → List Char
    | 'n' :: cs => cs
    | cs => cs
  afterInteger (cs : List Char) : List Char :=
    match afterDigits isDigit cs with
    | 'n' :: ds => ds
    | '.' :: ds => afterExponent (afterDigits isDigit ds)
    | ds => afterExponent ds

/-- The characters that a number may consist of. -/
def isNumberChar (c : Char) : Bool := continuesName c || c == '.' || c == '+' || c == '-'

/-- How many characters the number at the head has. -/
def numberLength (cs : List Char) : Nat :=
  let run := cs.takeWhile isNumberChar
  run.length - (afterNumber run).length

/-- A name with its `\u` escapes, as it is written, and the characters after it.
The first character is taken to be in place. -/
def takeName (cs : List Char) : Option (List Char × List Char) :=
  match cs with
  | '\\' :: 'u' :: ds =>
    match h : unicodeEscape ds 0 with
    | some (es, k) =>
      have : es.length < ds.length + 2 :=
        Nat.lt_of_le_of_lt (unicodeEscape_length h) (by omega)
      match takeName es with
      | some (n, r) => some ('\\' :: 'u' :: ds.take k ++ n, r)
      | none => none
    | none => none
  | '\\' :: _ => none
  | c :: ds =>
    if continuesName c then
      match takeName ds with
      | some (n, r) => some (c :: n, r)
      | none => none
    else some ([], c :: ds)
  | [] => some ([], [])
termination_by cs.length

/-- Punctuators by length, longest first. `>` stands alone. -/
def punctuators : List (List Char) :=
  ["<<=", "===", "!==", "...", "**=", "&&=", "||=", "??=",
   "<=", "<<", "==", "=>", "!=", "++", "+=", "--", "-=", "**", "*=", "/=", "%=", "&&",
   "&=", "||", "|=", "^=", "?.", "??",
   "\x7b", "\x7d", "(", ")", "[", "]", ";", ",", "<", ">", "=", "!", "+", "-", "*", "/",
   "%", "&", "|", "^", "~", "?", ":", ".", "@", "`"].map String.toList

def startsWith : List Char → List Char → Bool
  | [], _ => true
  | _, [] => false
  | a :: as, b :: bs => a == b && startsWith as bs

/-- `?.` before a digit is a question mark and a number. -/
def scanPunct (cs : List Char) : Option (List Char) :=
  match cs with
  | '?' :: '.' :: d :: _ => if isDigit d then some ['?'] else some ['?', '.']
  | _ => punctuators.find? (fun p => startsWith p cs)

/-- A token with the characters after it and the byte position there. -/
structure Scanned where
  token : Token
  rest : List Char
  stop : Nat

/-- The token at the head of the characters left, which stand at byte `n`. -/
def Token.scan (cs : List Char) (n : Nat) : Scanned :=
  match cs with
  | [] => ⟨.done, [], n⟩
  | c :: ds =>
    let invalid : Scanned := ⟨.invalid, ds, n + c.utf8Size⟩
    if c == '"' || c == '\x27' then
      match afterString c ds (n + 1) with
      | some (es, m) => ⟨.string, es, m⟩
      | none => invalid
    else if isDigit c || (c == '.' && ds.head?.any isDigit) then
      let k := numberLength cs
      ⟨.number, cs.drop k, n + width (cs.take k)⟩
    else if c == '#' then
      match ds with
      | '!' :: es =>
        let r := afterLine es (n + 2)
        ⟨.hashbang, r.1, r.2⟩
      | d :: _ =>
        if startsName d || d == '\\' then
          match takeName ds with
          | some (text, r) => ⟨.privateName, r, n + 1 + width text⟩
          | none => invalid
        else invalid
      | [] => invalid
    else if startsName c || c == '\\' then
      match takeName cs with
      | some (text, r) => ⟨.name (String.ofList text), r, n + width text⟩
      | none => invalid
    else
      match scanPunct cs with
      | some p => ⟨.punct (String.ofList p), cs.drop p.length, n + p.length⟩
      | none => invalid

end SceneSync.Script
