import SceneSync.Script.Grammar.Class

/-!
# Declarations

Variables, and the declarations of the typed dialect.
-/

namespace SceneSync.Script.Grammar

open Script.Parser

variable (rules : Rules)

/-- What a declarator binds, with its annotation. -/
def declaratorHead : Parser (List Tree) := do
  let n ← rules .pattern
  if ← isTyped then
    let _ ← accept "!"
  let t ← optionalDeclaredType rules
  return n.withRole .name :: t

def declaratorFrom (a : Nat) (head : List Tree) (noIn : Bool) : Parser Tree := do
  let v ← if ← accept "=" then
      pure [(← rules (.assignment ⟨noIn, false⟩)).withRole .value]
    else pure []
  close .variableDeclarator a (head ++ v)

def declarator (noIn : Bool) : Parser Tree := do
  let a ← start
  let head ← declaratorHead rules
  declaratorFrom rules a head noIn

def isVariableWord (w : String) : Bool := w == "var" || w == "let" || w == "const"

/-- Whether variables are declared here. `let` may also be a name. -/
def atVariables : Parser Bool := do
  match ← token with
  | .name w =>
    if w == "let" then
      match (← ahead).1 with
      | .name v => return v != "in" && v != "instanceof"
      | .punct p => return p == "[" || p == "\x7b"
      | _ => return false
    return w == "var" || w == "const"
  | _ => return false

def variableKind (w : String) : Kind :=
  if w == "var" then .variableDeclaration else .lexicalDeclaration

def variableStatement : Parser Tree := do
  let a ← start
  match ← token with
  | .name w =>
    advance
    let ds ← commaList (declarator rules false)
    semicolon
    close (variableKind w) a ds
  | _ => failure

/-- `type A<T> = U`, with the semicolon that follows. -/
def typeAlias : Parser Tree := do
  let a ← start
  expectWord "type"
  let n ← identifier
  let ts ← optionalTypeParameters rules
  expect "="
  let t ← rules .type
  closeStatement .typeAliasDeclaration a (n.withRole .name :: ts ++ [t])

def interface : Parser Tree := do
  let a ← start
  expectWord "interface"
  let n ← identifier
  let ts ← optionalTypeParameters rules
  let hs ← if ← acceptWord "extends" then commaList (heritageType rules) else pure []
  let b ← objectType rules
  close .interfaceDeclaration a (n.withRole .name :: ts ++ hs ++ [b])

def enumMember : Parser Tree := do
  let a ← start
  let k ← memberKey rules
  let v ← if ← accept "=" then pure [← assignment rules] else pure []
  close .enumMember a (k :: v)

def enumeration : Parser Tree := do
  let a ← start
  let _ ← acceptWord "const"
  expectWord "enum"
  let n ← identifier
  expect "\x7b"
  let ms ← listUntil "\x7d" (enumMember rules)
  close .enumDeclaration a (n.withRole .name :: ms)

/-- `namespace A.B {…}`, `module "m" {…}`, `global {…}`. Only a quoted module may
have no body. -/
def namespaceDeclaration : Parser Tree := do
  let a ← start
  if ← acceptWord "global" then
    let b ← rules .block
    close .namespaceDeclaration a [b]
  else
    if !(← acceptWord "namespace") then expectWord "module"
    match ← token with
    | .string =>
      let n ← leaf .string
      if ← at? "\x7b" then
        let b ← rules .block
        close .namespaceDeclaration a [n, b]
      else
        semicolon
        close .namespaceDeclaration a [n]
    | _ =>
      let n ← identifier
      let ns ← repeated do
        if ← accept "." then return some (← anyName .identifier)
        return none
      let b ← rules .block
      close .namespaceDeclaration a (n :: ns ++ [b])

def isOperatorWord : Token → Bool
  | .name w => ["in", "instanceof", "as", "satisfies"].contains w
  | _ => false

/-- Whether a declaration of the typed dialect starts here. Its words are names
elsewhere, and what follows on the line tells. -/
def atTypedDeclaration : Parser Bool := do
  if !(← isTyped) then return false
  let (next, sameLine) ← ahead
  match ← token with
  | .name w =>
    if w == "enum" then return true
    if w == "const" then return next == .name "enum"
    if w == "interface" then return isNameToken next && sameLine
    if w == "type" || w == "namespace" then return isNameToken next && sameLine
    if w == "module" then return (isNameToken next || next == .string) && sameLine
    if w == "abstract" then return next == .name "class" && sameLine
    if w == "declare" then return isWordToken next && !isOperatorWord next && sameLine
    if w == "global" then return next == .punct "\x7b"
    return false
  | _ => return false

def typedDeclaration : Parser Tree := do
  let a ← start
  match ← token with
  | .name "type" => typeAlias rules
  | .name "interface" => interface rules
  | .name "enum" | .name "const" => enumeration rules
  | .name "abstract" => classDeclaration rules
  | .name "declare" =>
    advance
    let d ← rules .statement
    guardThat ([Kind.variableDeclaration, .lexicalDeclaration, .functionSignature,
      .functionDeclaration, .classDeclaration, .abstractClassDeclaration,
      .typeAliasDeclaration, .interfaceDeclaration, .enumDeclaration,
      .namespaceDeclaration, .generatorFunctionDeclaration].contains d.kind)
    close .ambientDeclaration a [d]
  | .name _ => namespaceDeclaration rules
  | _ => failure

end SceneSync.Script.Grammar
