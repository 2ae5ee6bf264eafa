import SceneSync.Script.Grammar.Statement

/-!
# Imports and exports

What an export statement exports is a child in the role of a declaration or of a
value, and the module that it takes names from is one in the role of a source.
-/

namespace SceneSync.Script.Grammar

open Script.Parser

variable (rules : Rules)

/-- A name of a module's interface, which may be quoted. -/
def moduleName : Parser Tree := do
  match ← token with
  | .string => leaf .string
  | _ => anyName .identifier

/-- Attributes of an import: `with {…}` or `assert {…}`. -/
def importAttributes : Parser (List Tree) := do
  if (← atWord "with") || ((← atWord "assert") && !(← onNewLine)) then
    advance
    return [← objectLiteral rules]
  return []

def fromClause : Parser (List Tree) := do
  expectWord "from"
  let s ← stringLiteral
  let w ← importAttributes rules
  return s.withRole .source :: w

/-- The word `type` in front of a name of the list. -/
def typeMark : Parser Unit := do
  if (← isTyped) && (← atWord "type") then
    match (← ahead).1 with
    | .string => advance
    | .name w => if w != "as" then advance
    | _ => pure ()

/-- One name of a list between braces: `a`, `a as b`. -/
def specifier : Parser Tree := do
  let a ← start
  typeMark
  let n ← moduleName
  let other ← if ← acceptWord "as" then pure [(← moduleName).withRole .alias] else pure []
  close .exportSpecifier a (n.withRole .name :: other)

def nameList (k : Kind) : Parser Tree := do
  let a ← start
  expect "\x7b"
  let ns ← listUntil "\x7d" specifier
  close k a ns

/-- `x = require("m")` or `x = A.B` behind `import`. -/
def importAliasTail : Parser (List Tree) := do
  expect "="
  let e ← rules .chain
  semicolon
  return [e]

/-- The word `type` behind `import`, unless it is the name imported. -/
def importTypeMark : Parser Unit := do
  if (← isTyped) && (← atWord "type") then
    match (← ahead).1 with
    | .name w => if w != "from" then advance
    | .punct p => if p == "\x7b" || p == "*" then advance
    | _ => pure ()

/-- Everything of the module: `* as x`, or the names between braces. -/
def importedNames : Parser Tree := do
  if ← at? "*" then
    let a ← start
    advance
    expectWord "as"
    let n ← identifier
    close .importBinding a [n]
  else nameList .importBinding

def importStatement : Parser Tree := do
  let a ← start
  expectWord "import"
  match ← token with
  | .string =>
    let s ← stringLiteral
    let w ← importAttributes rules
    semicolon
    close .importStatement a (s.withRole .source :: w)
  | _ =>
    importTypeMark
    if isNameToken (← token) then
      let n ← identifier
      if (← isTyped) && (← at? "=") then
        let t ← importAliasTail rules
        close .importAlias a (n :: t)
      else
        let ns ← if ← accept "," then pure [← importedNames] else pure []
        let f ← fromClause rules
        semicolon
        close .importStatement a (n :: ns ++ f)
    else
      let ns ← importedNames
      let f ← fromClause rules
      semicolon
      close .importStatement a (ns :: f)

/-- Statements that may stand behind `export`. -/
def isExportable : Kind → Bool
  | .functionDeclaration | .generatorFunctionDeclaration | .functionSignature
  | .classDeclaration | .abstractClassDeclaration | .variableDeclaration
  | .lexicalDeclaration | .typeAliasDeclaration | .interfaceDeclaration
  | .enumDeclaration | .ambientDeclaration | .namespaceDeclaration | .importAlias => true
  | _ => false

def exportable : Parser Tree := do
  let d ← rules .statement
  guardThat (isExportable d.kind)
  return d.withRole .declaration

/-- What stands behind `export default`: a declaration that has a name, or else an
expression. -/
def defaultExport : Parser Tree := do
  match ← attempt (exportable rules) with
  | some d => return d
  | none =>
    let e ← assignment rules
    semicolon
    return e.withRole .value

/-- The names behind `export`, which another module may be the source of. -/
def exportedNames : Parser (List Tree) := do
  if ← accept "*" then
    let n ← if ← acceptWord "as" then pure [← moduleName] else pure []
    let f ← fromClause rules
    semicolon
    return n ++ f
  else
    let c ← nameList .exportClause
    let f ← if ← atWord "from" then fromClause rules else pure []
    semicolon
    return c :: f

def exportStatement : Parser Tree := do
  let a ← start
  expectWord "export"
  let typed ← isTyped
  let (next, _) ← ahead
  let parts ← match ← token with
    | .punct "=" => do
      guardThat typed
      advance
      let e ← expression rules
      semicolon
      pure [e]
    | .punct "@" => pure [← exportable rules]
    | .punct _ => exportedNames rules
    | .name w => do
      if w == "default" then
        advance
        pure [← defaultExport rules]
      else if typed && w == "as" then
        advance
        expectWord "namespace"
        let n ← identifier
        semicolon
        pure [n]
      else if typed && w == "type" && (next == .punct "\x7b" || next == .punct "*") then
        advance
        exportedNames rules
      else pure [← exportable rules]
    | _ => failure
  close .exportStatement a parts

end SceneSync.Script.Grammar
