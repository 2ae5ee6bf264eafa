import SceneSync.Script.Token
import SceneSync.Script.Tree
import SceneSync.Script.Dialect

/-!
# Cursors and parsers

A cursor stands at one token of a source and knows the characters from that
token on, so that the grammar may read them in another way. A parser takes a
cursor to a result and a later cursor, or fails; a failed attempt leaves the
cursor where it was.
-/

namespace SceneSync.Script

structure Cursor where
  dialect : Dialect
  /-- the number of characters of the source, which bounds every repetition -/
  size : Nat
  token : Token
  start : Nat
  stop : Nat
  /-- the characters from the token on -/
  here : List Char
  /-- the characters after the token -/
  rest : List Char
  /-- a line ends between the token and the one before it -/
  newline : Bool
  /-- where the token before it ends -/
  previous : Nat
  /-- where the comments end that follow that token on its line -/
  remark : Nat

namespace Cursor

/-- The cursor at the first token among `cs`, which stand at byte `pos`. -/
def read (d : Dialect) (size pos : Nat) (cs : List Char) : Cursor :=
  match skipGap cs pos false true pos with
  | none => ⟨d, size, .invalid, pos, pos, cs, [], false, pos, pos⟩
  | some g =>
    let r := Token.scan g.rest g.width
    ⟨d, size, r.token, g.width, r.stop, g.rest, r.rest, g.newline, pos, g.remark⟩

def ofText (d : Dialect) (cs : List Char) : Cursor := read d cs.length 0 cs

def advance (c : Cursor) : Cursor := read c.dialect c.size c.stop c.rest

/-- The cursor at the first token of `cs`, a later part of the source at `pos`. -/
def jump (c : Cursor) (pos : Nat) (cs : List Char) : Cursor := read c.dialect c.size pos cs

def isTyped (c : Cursor) : Bool := c.dialect.isTyped

end Cursor

abbrev Parser (α : Type) := StateT Cursor Option α

namespace Parser

variable {α : Type}

def here : Parser Cursor := get

def token : Parser Token := do return (← get).token

def start : Parser Nat := do return (← get).start

def isTyped : Parser Bool := do return (← get).isTyped

def onNewLine : Parser Bool := do return (← get).newline

def advance : Parser Unit := modify Cursor.advance

/-- The token after the current one, and whether it is on the same line. -/
def ahead : Parser (Token × Bool) := do
  let c := (← get).advance
  return (c.token, !c.newline)

def guardThat (b : Bool) : Parser Unit := if b then pure () else failure

def at? (p : String) : Parser Bool := do return (← token) == .punct p

def atWord (w : String) : Parser Bool := do return (← token) == .name w

def accept (p : String) : Parser Bool := do
  if ← at? p then
    advance
    return true
  return false

def acceptWord (w : String) : Parser Bool := do
  if ← atWord w then
    advance
    return true
  return false

/-- Accepts one of several punctuators. -/
def acceptOneOf (ps : List String) : Parser Bool := do
  match ← token with
  | .punct p => if ps.contains p then accept p else return false
  | _ => return false

/-- A word of the typed dialect. -/
def acceptTypedWord (w : String) : Parser Bool := do
  if ← isTyped then acceptWord w else return false

def expect (p : String) : Parser Unit := do guardThat (← accept p)

def expectWord (w : String) : Parser Unit := do guardThat (← acceptWord w)

def attempt (p : Parser α) : Parser (Option α) := fun c =>
  match p c with
  | some (a, d) => some (some a, d)
  | none => some (none, c)

/-- The node of a kind from byte `a` to the end of the token before the cursor, or of
its last child when that reaches further. -/
def close (k : Kind) (a : Nat) (children : List Tree) : Parser Tree := do
  let last := (children.getLast?.map Tree.stop).getD 0
  return .node .plain k a (max (← get).previous last) children

/-- A node of the current token alone. -/
def leaf (k : Kind) : Parser Tree := do
  let a ← start
  advance
  close k a []

def repeatAux (step : Parser (Option α)) : Nat → List α → Parser (List α)
  | 0, _ => failure
  | n + 1, done => do
    match ← step with
    | none => return done.reverse
    | some a => repeatAux step n (a :: done)

/-- Repeats a step until it yields `none`. Every step that yields reads a
character at least, so the bound is never met. -/
def repeated (step : Parser (Option α)) : Parser (List α) := do
  repeatAux step ((← get).size + 2) []

/-- Items up to a closing punctuator, with commas between them and possibly one
behind the last. The closing punctuator is read too. -/
def listUntil (stop : String) (item : Parser α) : Parser (List α) := do
  let items ← repeated do
    if ← at? stop then return none
    let x ← item
    if !(← at? stop) then expect ","
    return some x
  expect stop
  return items

/-- One item or more with commas between them. -/
def commaList (item : Parser α) : Parser (List α) := do
  let x ← item
  let xs ← repeated do
    if ← accept "," then return some (← item)
    return none
  return x :: xs

/-- Whether a statement may end here without a semicolon: before a closing brace, a
new line or the end of the source. -/
def mayEnd : Parser Bool := do
  return (← at? "\x7d") || (← token) == .done || (← onNewLine)

def semicolon : Parser Unit := do
  if !(← accept ";") then guardThat (← mayEnd)

/-- As `close`, for a statement up to its semicolon. Where that is missing in the
typed dialect, the comments on the line belong to the statement. -/
def closeStatement (k : Kind) (a : Nat) (children : List Tree) : Parser Tree := do
  if ← accept ";" then close k a children
  else
    guardThat (← mayEnd)
    let c ← here
    return .node .plain k a (if c.isTyped then c.remark else c.previous) children

/-- As `close`, for a declaration that ends at a brace. In the typed dialect it may
end as a statement without semicolon, unless the next line could go on. -/
def closeDeclaration (k : Kind) (a : Nat) (children : List Tree) : Parser Tree := do
  let c ← here
  let goesOn := match c.token with
    | .punct p => [";", "`", "/", "/=", "<", "+", "-"].contains p
    | _ => false
  if c.isTyped && !goesOn && (← mayEnd) then
    return .node .plain k a c.remark children
  else close k a children

end Parser

end SceneSync.Script
