import SceneSync.Yaml.Mark

/-!
# YAML scalars

Plain, quoted and block scalars. In the first two a line end is read as a blank,
and each empty line as a line end.
-/

namespace SceneSync.Yaml

def isFlowMark (c : Char) : Bool := ",[]\x7b\x7d".toList.contains c

/-! ## Plain scalars -/

/-- Whether a plain scalar ends before the characters, of which the one before is
blank or not. -/
def endsPlain (flow blank : Bool) : List Char → Bool
  | [] => true
  | '\n' :: _ => true
  | ':' :: cs => atBreak cs || (flow && cs.head?.any isFlowMark)
  | '#' :: _ => blank
  | c :: _ => flow && isFlowMark c

/-- The part of a plain scalar on one line. -/
def plainLine (flow : Bool) : List Char → Bool → List Char
  | [], _ => []
  | c :: cs, blank =>
    if endsPlain flow blank (c :: cs) then [] else c :: plainLine flow cs (isSpace c)

def trimSpaces (cs : List Char) : List Char := (cs.reverse.dropWhile isSpace).reverse

/-- Whether a plain scalar may start with the characters. -/
def startsPlain (flow : Bool) : List Char → Bool
  | [] => false
  | c :: cs =>
    if c == '-' || c == '?' || c == ':' then
      !(atBreak cs || (flow && cs.head?.any isFlowMark))
    else !(isFlowMark c || "#&*!|>\x27\"%@`".toList.contains c || isSpace c || c == '\n')

/-- The number of empty lines at the head, and the mark at the first character of the
line behind them. -/
def emptyLines (cs : List Char) (column count : Nat) : Nat × Mark :=
  match cs with
  | '\n' :: ds => emptyLines ds 0 (count + 1)
  | c :: ds => if isSpace c then emptyLines ds (column + 1) count else (count, ⟨c :: ds, column⟩)
  | [] => (count, ⟨[], column⟩)

/-- What a line end and the empty lines behind it are read as. -/
def folded (empty : Nat) : List Char :=
  if empty == 0 then [' '] else List.replicate empty '\n'

/-- Reads on with the lines of a plain scalar that stand deeper than `indent`. None of
them may be the key of a mapping. -/
def plainLines (flow : Bool) (indent : Int) : Nat → Mark → List Char →
    Option (List Char × Mark)
  | 0, _, _ => none
  | bound + 1, m, done =>
    match m.skipSpaces.rest with
    | '\n' :: cs =>
      let (empty, next) := emptyLines cs 0 0
      if next.isEnd || next.column ≤ indent || next.head? == some '#' ||
          endsPlain flow true next.rest then some (done, m)
      else
        let text := trimSpaces (plainLine flow next.rest true)
        let after := next.skip text.length
        if !flow && after.skipSpaces.isMarker ':' then none
        else plainLines flow indent bound after (done ++ folded empty ++ text)
    | _ => some (done, m)

def plain (flow : Bool) (indent : Int) (m : Mark) : Option (List Char × Mark) :=
  let text := trimSpaces (plainLine flow m.rest false)
  plainLines flow indent (m.rest.length + 1) (m.skip text.length) text

/-! ## Quoted scalars -/

/-- Reads a line end in a quoted scalar: the blanks around it are dropped. -/
def quotedBreak (cs : List Char) (done : List Char) : List Char × Mark :=
  let (empty, m) := emptyLines cs 0 0
  (folded empty ++ done.dropWhile isSpace, m)

/-- Reads on from inside a single-quoted scalar; what has been read is in reverse. -/
def singleQuoted : Nat → Mark → List Char → Option (List Char × Mark)
  | 0, _, _ => none
  | bound + 1, m, done =>
    match m.rest with
    | '\x27' :: '\x27' :: _ => singleQuoted bound (m.skip 2) ('\x27' :: done)
    | '\x27' :: _ => some (done.reverse, m.skip 1)
    | '\n' :: cs =>
      let r := quotedBreak cs done
      singleQuoted bound r.2 r.1
    | c :: _ => singleQuoted bound (m.skip 1) (c :: done)
    | [] => none

def hexValue? (c : Char) : Option Nat :=
  if '0' ≤ c && c ≤ '9' then some (c.toNat - 48)
  else if 'a' ≤ c && c ≤ 'f' then some (c.toNat - 87)
  else if 'A' ≤ c && c ≤ 'F' then some (c.toNat - 55)
  else none

def hexNumber? (cs : List Char) : Option Nat :=
  cs.foldl (fun n c => do return (← n) * 16 + (← hexValue? c)) (some 0)

/-- The escapes of one character. -/
def simpleEscapes : List (Char × Nat) :=
  [('0', 0), ('a', 7), ('b', 8), ('t', 9), ('\t', 9), ('n', 10), ('v', 11), ('f', 12), ('r', 13),
   ('e', 27), (' ', 32), ('"', 34), ('/', 47), ('\\', 92), ('N', 0x85), ('_', 0xA0),
   ('L', 0x2028), ('P', 0x2029)]

/-- The number of hexadecimal digits behind an escape. -/
def escapeDigits : Char → Option Nat
  | 'x' => some 2
  | 'u' => some 4
  | 'U' => some 8
  | _ => none

/-- The character of an escape, and the number of characters behind the backslash. -/
def escape? : List Char → Option (Char × Nat)
  | [] => none
  | c :: cs =>
    match escapeDigits c with
    | some k => do
      guard (k ≤ cs.length)
      let n ← hexNumber? (cs.take k)
      return (Char.ofNat n, k + 1)
    | none => (simpleEscapes.lookup c).map fun n => (Char.ofNat n, 1)

def doubleQuoted : Nat → Mark → List Char → Option (List Char × Mark)
  | 0, _, _ => none
  | bound + 1, m, done =>
    match m.rest with
    | '"' :: _ => some (done.reverse, m.skip 1)
    | '\\' :: '\n' :: cs => doubleQuoted bound (emptyLines cs 0 0).2 done
    | '\\' :: cs =>
      match escape? cs with
      | some (c, k) => doubleQuoted bound (m.skip (k + 1)) (c :: done)
      | none => none
    | '\n' :: cs =>
      let r := quotedBreak cs done
      doubleQuoted bound r.2 r.1
    | c :: _ => doubleQuoted bound (m.skip 1) (c :: done)
    | [] => none

/-- The quoted scalar at the mark, if there is one. -/
def quoted (m : Mark) : Option (List Char × Mark) :=
  match m.rest with
  | '"' :: _ => doubleQuoted (m.rest.length + 1) (m.skip 1) []
  | '\x27' :: _ => singleQuoted (m.rest.length + 1) (m.skip 1) []
  | _ => none

def isQuote (m : Mark) : Bool := m.head? == some '"' || m.head? == some '\x27'

/-! ## Block scalars -/

inductive Chomping where
  | clip | strip | keep
  deriving DecidableEq, Repr

structure BlockHeader where
  fold : Bool
  chomping : Chomping
  /-- the depth given by a digit -/
  depth : Option Nat

def blockHeader (fold : Bool) : List Char → BlockHeader → Option BlockHeader
  | [], h => some h
  | c :: cs, h =>
    if c == '-' then blockHeader fold cs { h with chomping := .strip }
    else if c == '+' then blockHeader fold cs { h with chomping := .keep }
    else if '1' ≤ c && c ≤ '9' then blockHeader fold cs { h with depth := some (c.toNat - 48) }
    else if isSpace c then
      if (cs.dropWhile isSpace).isEmpty || (cs.dropWhile isSpace).head? == some '#' then some h
      else none
    else none

def splitLines : List Char → List (List Char)
  | [] => [[]]
  | c :: cs =>
    if c == '\n' then [] :: splitLines cs
    else match splitLines cs with
      | l :: ls => (c :: l) :: ls
      | [] => [[c]]

def isEmptyLine (l : List Char) : Bool := l.all isSpace

def spacesBefore (l : List Char) : Nat := (l.takeWhile (· == ' ')).length

/-- Puts lines together, each behind a line end. -/
def literalText (ls : List (List Char)) : List Char := ['\n'].intercalate ls

/-- As `literalText`, but a single line end between two lines at the margin is a
blank. `count` line ends have been passed since the line before. -/
def foldedText : List (List Char) → Bool → Nat → List Char
  | [], _, _ => []
  | l :: ls, moreBefore, count =>
    if l.isEmpty then foldedText ls moreBefore (count + 1)
    else
      let more := l.head?.any isSpace
      let between :=
        if moreBefore || more then List.replicate count '\n'
        else if count == 1 then [' ']
        else List.replicate (count - 1) '\n'
      between ++ l ++ foldedText ls more 1

/-- The scalar behind a block mark: the lines deeper than `indent`. -/
def blockScalar (indent : Int) (m : Mark) : Option (List Char × Mark) := do
  let header := m.rest.takeWhile (· != '\n')
  let h ← blockHeader (m.head? == some '>') (header.drop 1)
    ⟨m.head? == some '>', .clip, none⟩
  let body := (m.skip header.length).skip 1
  let lines := if (m.skip header.length).isEnd then [] else splitLines body.rest
  let margin : Int := match h.depth with
    | some d => max indent 0 + d
    | none => ((lines.find? (!isEmptyLine ·)).map fun l => (spacesBefore l : Int)).getD 0
  let inside := lines.takeWhile fun l =>
    isEmptyLine l || (indent < spacesBefore l && margin ≤ spacesBefore l)
  let texts := inside.map (·.drop margin.toNat)
  let content := (texts.reverse.dropWhile (·.isEmpty)).reverse
  -- the last piece of the text has no line end behind it
  let ended := texts.length - content.length + (if inside.length < lines.length then 1 else 0)
  let text := if h.fold then foldedText content true 0 else literalText content
  let tail := match h.chomping with
    | .strip => []
    | .clip => if content.isEmpty || ended == 0 then [] else ['\n']
    | .keep => List.replicate ended '\n'
  let size := inside.foldl (fun n l => n + l.length + 1) 0
  return (text ++ tail, ⟨(body.skip size).rest, 0⟩)

end SceneSync.Yaml
