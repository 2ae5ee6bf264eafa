import SceneSync.Script.Grammar.Declaration
import SceneSync.Script.Grammar.Literal

/-!
# Statements

Statements other than imports and exports. A statement that needs a semicolon
may also end before a closing brace, a new line or the end of the source.
-/

namespace SceneSync.Script.Grammar

open Script.Parser

variable (rules : Rules)

def statement : Parser Tree := rules .statement

def block : Parser Tree := do
  let a ← start
  expect "\x7b"
  let ss ← repeated do
    if ← at? "\x7d" then return none
    return some (← statement rules)
  expect "\x7d"
  close .statementBlock a ss

/-- An expression in parentheses, as behind `if` and `while`. -/
def condition : Parser Tree := do
  let a ← start
  expect "("
  let e ← expression rules
  expect ")"
  close .parenthesizedExpression a [e]

def ifStatement : Parser Tree := do
  let a ← start
  expectWord "if"
  let c ← condition rules
  let x ← statement rules
  let y ← if ← acceptWord "else" then pure [← statement rules] else pure []
  close .ifStatement a (c :: x :: y)

def whileStatement : Parser Tree := do
  let a ← start
  expectWord "while"
  let c ← condition rules
  let s ← statement rules
  close .whileStatement a [c, s]

/-- The semicolon behind the condition may be missing anywhere. -/
def doStatement : Parser Tree := do
  let a ← start
  expectWord "do"
  let s ← statement rules
  expectWord "while"
  let c ← condition rules
  let _ ← accept ";"
  close .doStatement a [s, c]

def withStatement : Parser Tree := do
  let a ← start
  expectWord "with"
  let c ← condition rules
  let s ← statement rules
  close .withStatement a [c, s]

/-- The two clauses of a `for` behind its start, and its body. -/
def forTail (a : Nat) (first : List Tree) : Parser Tree := do
  expect ";"
  let c ← if ← at? ";" then pure [] else pure [← expression rules]
  expect ";"
  let u ← if ← at? ")" then pure [] else pure [← expression rules]
  expect ")"
  let s ← statement rules
  close .forStatement a (first ++ c ++ u ++ [s])

/-- The rest of a `for` over the values of an object. -/
def forInTail (a : Nat) (left : List Tree) : Parser Tree := do
  if !(← acceptWord "of") then expectWord "in"
  let r ← expression rules
  expect ")"
  let s ← statement rules
  close .forInStatement a (left ++ [r.withRole .right, s])

def atForIn : Parser Bool := do
  return (← atWord "of") || (← atWord "in")

def forVariables (a : Nat) : Parser Tree := do
  let b ← start
  match ← token with
  | .name w =>
    advance
    let c ← start
    let head ← declaratorHead rules
    if ← atForIn then forInTail rules a head
    else
      let d ← declaratorFrom rules c head true
      if ← atForIn then forInTail rules a [d]
      else
        let ds ← if ← accept "," then commaList (declarator rules true) else pure []
        let v ← close (variableKind w) b (d :: ds)
        forTail rules a [v]
  | _ => failure

def forStatement : Parser Tree := do
  let a ← start
  expectWord "for"
  let _ ← acceptWord "await"
  expect "("
  if ← at? ";" then forTail rules a []
  else if ← atVariables then forVariables rules a
  else
    let e ← rules (.expression true)
    if ← atForIn then
      match toPattern? e with
      | none => failure
      | some p => forInTail rules a [p.withRole .left]
    else forTail rules a [e]

def switchCase : Parser Tree := do
  let a ← start
  let test ← if ← acceptWord "default" then pure [] else do
      expectWord "case"
      pure [← expression rules]
  expect ":"
  let ss ← repeated do
    if (← at? "\x7d") || (← atWord "case") || (← atWord "default") then return none
    return some (← statement rules)
  close .switchCase a (test ++ ss)

def switchStatement : Parser Tree := do
  let a ← start
  expectWord "switch"
  let c ← condition rules
  expect "\x7b"
  let cs ← repeated do
    if ← at? "\x7d" then return none
    return some (← switchCase rules)
  expect "\x7d"
  close .switchStatement a (c :: cs)

def catchClause : Parser Tree := do
  let a ← start
  expectWord "catch"
  let p ← if ← accept "(" then do
      let p ← rules .pattern
      let t ← optionalDeclaredType rules
      expect ")"
      pure (p :: t)
    else pure []
  let b ← rules .block
  close .catchClause a (p ++ [b])

def finallyClause : Parser Tree := do
  let a ← start
  expectWord "finally"
  let b ← rules .block
  close .finallyClause a [b]

def tryStatement : Parser Tree := do
  let a ← start
  expectWord "try"
  let b ← rules .block
  let c ← if ← atWord "catch" then pure [← catchClause rules] else pure []
  let f ← if ← atWord "finally" then pure [← finallyClause rules] else pure []
  guardThat !(c.isEmpty && f.isEmpty)
  close .tryStatement a (b :: c ++ f)

def returnStatement : Parser Tree := do
  let a ← start
  expectWord "return"
  let bare := (← at? ";") || (← at? "\x7d") || (← onNewLine) || (← token) == .done
  let e ← if bare then pure [] else pure [← expression rules]
  semicolon
  close .returnStatement a e

def throwStatement : Parser Tree := do
  let a ← start
  expectWord "throw"
  let e ← expression rules
  semicolon
  close .throwStatement a [e]

/-- `break` and `continue`, with a label on their line or none. -/
def jumpStatement (w : String) (k : Kind) : Parser Tree := do
  let a ← start
  expectWord w
  let l ← if isNameToken (← token) && !(← onNewLine) then pure [← identifier] else pure []
  semicolon
  close k a l

def debuggerStatement : Parser Tree := do
  let a ← start
  expectWord "debugger"
  semicolon
  close .debuggerStatement a []

def emptyStatement : Parser Tree := do
  let a ← start
  expect ";"
  close .emptyStatement a []

def labeledStatement : Parser Tree := do
  let a ← start
  let l ← identifier
  expect ":"
  let s ← statement rules
  close .labeledStatement a [l, s]

def expressionStatement : Parser Tree := do
  let a ← start
  let e ← expression rules
  semicolon
  close .expressionStatement a [e]

/-- A class or, with `export` behind its decorators, an export of one. -/
def decorated (exportStatement : Parser Tree) : Parser Tree := do
  let c ← here
  let ds ← decorators rules
  if ← atWord "export" then
    let e ← exportStatement
    return .node .plain e.kind c.start e.stop (ds ++ e.children)
  set c
  classDeclaration rules

/-- A statement that starts with a word, modules apart. -/
def wordStatement (w : String) : Parser Tree := do
  if ← atTypedDeclaration then return ← typedDeclaration rules
  if ← atVariables then return ← variableStatement rules
  if ← atFunction then return ← functionDeclaration rules
  match w with
  | "class" => classDeclaration rules
  | "if" => ifStatement rules
  | "for" => forStatement rules
  | "while" => whileStatement rules
  | "do" => doStatement rules
  | "switch" => switchStatement rules
  | "try" => tryStatement rules
  | "return" => returnStatement rules
  | "throw" => throwStatement rules
  | "break" => jumpStatement "break" .breakStatement
  | "continue" => jumpStatement "continue" .continueStatement
  | "with" => withStatement rules
  | "debugger" => debuggerStatement
  | _ =>
    if !isReserved w && (← ahead).1 == .punct ":" then labeledStatement rules
    else expressionStatement rules

end SceneSync.Script.Grammar
