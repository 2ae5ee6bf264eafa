import SceneSync.Script.Grammar.Goal

/-!
# Markup

Elements between tags, which the plain dialect allows as expressions. Text and
quoted attributes follow rules of their own, so they are read from the
characters. The parsers of elements stop at the closing `>` of their last tag,
since only what stands around an element tells how its characters go on.
-/

namespace SceneSync.Script.Grammar

open Script.Parser

variable (rules : Rules)

def isTagChar (c : Char) : Bool := continuesName c || c == '-'

/-- A name that may hold hyphens. -/
def tagWord : Parser Unit := do
  let c ← here
  match c.token with
  | .name _ =>
    let word := c.here.takeWhile isTagChar
    set (c.jump (c.start + width word) (c.here.drop word.length))
  | _ => failure

/-- `a`, `a:b`, `a.b.c`. -/
def tagName : Parser Unit := do
  tagWord
  if ← accept ":" then tagWord
  else
    let _ ← repeated do
      if ← accept "." then
        tagWord
        return some ()
      return none

/-- A quoted value, in which nothing is escaped. -/
def attributeText : Parser Unit := do
  let c ← here
  match c.here with
  | q :: cs =>
    guardThat (q == '"' || q == '\x27')
    let text := cs.takeWhile (· != q)
    match cs.drop text.length with
    | _ :: rest => set (c.jump (c.start + width text + 2) rest)
    | [] => failure
  | [] => failure

/-- An expression in braces, or nothing but comments in them. The cursor stops at
the closing brace. -/
def container : Parser (List Tree) := do
  expect "\x7b"
  if ← at? "\x7d" then return []
  let _ ← accept "..."
  let e ← expression rules
  guardThat (← at? "\x7d")
  return [e]

def isQuote (c : Cursor) : Bool := c.here.head?.any (fun q => q == '"' || q == '\x27')

def tagAttribute : Parser Tree := do
  let a ← start
  if ← at? "\x7b" then
    let e ← container rules
    expect "\x7d"
    close .markupContainer a e
  else
    tagName
    let v ← if ← accept "=" then
        if isQuote (← here) then do
          attributeText
          pure []
        else if ← at? "\x7b" then do
          let e ← container rules
          expect "\x7d"
          pure e
        else do
          let e ← rules .markup
          expect ">"
          pure [e]
      else pure []
    close .markupAttribute a v

/-- The cursor at the next `<` or `{` behind the current token. -/
def markupText : Parser Unit := do
  let c ← here
  let text := c.rest.takeWhile (fun d => !("<>\x7b\x7d".toList.contains d))
  set (c.jump (c.stop + width text) (c.rest.drop text.length))
  guardThat ((← at? "<") || (← at? "\x7b"))

/-- What stands between two tags, up to the second of them. -/
def markupChildren : Parser (List Tree) := do
  let items ← repeated do
    markupText
    if ← at? "\x7b" then
      let a ← start
      let e ← container rules
      return some (Tree.node .plain .markupContainer a (← here).stop e)
    if (← ahead).1 == .punct "/" then return none
    return some (← rules .markup)
  expect "<"
  expect "/"
  if !(← at? ">") then tagName
  guardThat (← at? ">")
  return items

def markupElement : Parser Tree := do
  let a ← start
  expect "<"
  let attributes ← if ← at? ">" then pure [] else do
      tagName
      repeated do
        if (← at? ">") || (← at? "/") then return none
        return some (← tagAttribute rules)
  let children ← if ← accept "/" then do
      guardThat (← at? ">")
      pure []
    else do
      guardThat (← at? ">")
      markupChildren rules
  return .node .plain .markupElement a (← here).stop (attributes ++ children)

end SceneSync.Script.Grammar
