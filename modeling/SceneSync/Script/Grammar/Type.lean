import SceneSync.Script.Grammar.Goal

/-!
# Types

The types of the typed dialect. All that later stages read of a type is its span
and the value paths behind `typeof`, so most types are nodes of one kind.
-/

namespace SceneSync.Script.Grammar

open Script.Parser

variable (rules : Rules)

def typeArguments : Parser Tree := do
  let a ← start
  expect "<"
  let ts ← commaList (rules .type)
  expect ">"
  close .typeArguments a ts

/-- The type behind a colon of a variable or a parameter. -/
def declaredType : Parser Tree := do
  let a ← start
  expect ":"
  let t ← rules .type
  close .declaredType a [t]

def optionalDeclaredType : Parser (List Tree) := do
  if (← isTyped) && (← at? ":") then return [← declaredType rules]
  return []

/-- `T`, `const T`, `T extends U`, `in T = U` between angle brackets. -/
def typeParameter : Parser Tree := do
  let a ← start
  let _ ← repeated do
    match ← token with
    | .name w =>
      if w == "const" || w == "in" || w == "out" then
        match (← ahead).1 with
        | .name _ =>
          advance
          return some ()
        | _ => return none
      return none
    | _ => return none
  let n ← identifier
  let bound ← if ← acceptWord "extends" then pure [← rules .type] else pure []
  let default ← if ← accept "=" then pure [← rules .type] else pure []
  close .typeParameter a (n :: bound ++ default)

def typeParameters : Parser Tree := do
  let a ← start
  expect "<"
  let ps ← listUntil ">" (typeParameter rules)
  guardThat !ps.isEmpty
  close .typeParameters a ps

def optionalTypeParameters : Parser (List Tree) := do
  if (← isTyped) && (← at? "<") then return [← typeParameters rules]
  return []

/-- The type of a result: a type, `x is T` or `asserts x is T`. -/
def resultType : Parser Tree := do
  let a ← start
  let assertion : Parser Tree := do
    expectWord "asserts"
    guardThat !(← onNewLine)
    let x ← anyName .identifier
    let t ← if ← acceptWord "is" then pure [← rules .type] else pure []
    close .type a (x :: t)
  let predicate : Parser Tree := do
    let x ← anyName .identifier
    guardThat !(← onNewLine)
    expectWord "is"
    let t ← rules .type
    close .type a [x, t]
  match ← attempt assertion with
  | some t => return t
  | none =>
    match ← attempt predicate with
    | some t => return t
    | none => rules .type

def declaredResult : Parser Tree := do
  let a ← start
  expect ":"
  let t ← resultType rules
  close .declaredType a [t]

def optionalResult : Parser (List Tree) := do
  if (← isTyped) && (← at? ":") then return [← declaredResult rules]
  return []

/-- The value path behind `typeof`, as the nodes of an expression. -/
def queriedPath : Parser Tree := do
  let a ← start
  let head ←
    if ← acceptWord "import" then do
      expect "("
      let s ← rules .type
      expect ")"
      close .importCall a [s]
    else if ← atWord "this" then leaf .thisExpression
    else identifier
  let steps ← repeated do
    if (← at? ".") || (← at? "?.") then
      advance
      match ← token with
      | .name _ => return some (Kind.memberExpression, ← leaf .propertyIdentifier, ← here)
      | .privateName => return some (Kind.memberExpression, ← leaf .privateIdentifier, ← here)
      | _ => failure
    if ← at? "[" then
      let index : Parser Tree := do
        advance
        let i ← match ← token with
          | .string => leaf .string
          | .number => leaf .number
          | .name w =>
            if w == "number" || w == "string" then leaf .identifier else failure
          | _ => failure
        expect "]"
        return i
      match ← attempt index with
      | some i => return some (Kind.subscriptExpression, i, ← here)
      | none => return none
    return none
  return steps.foldl (fun t s =>
    let role := if s.1 == .memberExpression then Role.property else Role.index
    .node .plain s.1 a s.2.2.previous [t.withRole .object, s.2.1.withRole role]) head

def typeQuery : Parser Tree := do
  let a ← start
  expectWord "typeof"
  let p ← queriedPath rules
  let args ← if (← at? "<") && !(← onNewLine) then pure [← typeArguments rules] else pure []
  close .typeQuery a (p :: args)

/-- Reserved words that are types. -/
def typeWords : List String := ["void", "null", "true", "false", "this"]

/-- `A`, `A.B.C`, `A<B>`. -/
def namedType : Parser Tree := do
  let a ← start
  match ← token with
  | .name w =>
    if typeWords.contains w then leaf .type
    else
      guardThat !(isReserved w)
      let n ← leaf .typeIdentifier
      let ns ← repeated do
        if ← accept "." then return some (← anyName .typeIdentifier)
        return none
      let args ← if (← at? "<") && !(← onNewLine) then pure [← typeArguments rules] else pure []
      close .type a (n :: ns ++ args)
  | _ => failure

/-- The `import("m").A<B>` form. -/
def importedType : Parser Tree := do
  let a ← start
  expectWord "import"
  expect "("
  let s ← rules .type
  let _ ← if ← accept "," then pure [← rules .type] else pure []
  expect ")"
  let ns ← repeated do
    if ← accept "." then return some (← anyName .typeIdentifier)
    return none
  let args ← if ← at? "<" then pure [← typeArguments rules] else pure []
  close .type a (s :: ns ++ args)

/-- An element of a tuple: `T`, `T?`, `...T`, `name: T`, `name?: T`. -/
def tupleElement : Parser Tree := do
  let a ← start
  let _ ← accept "..."
  let labelled : Parser Tree := do
    let n ← anyName .identifier
    let _ ← accept "?"
    expect ":"
    let t ← rules .type
    close .type a [n, t]
  match ← attempt labelled with
  | some t => return t
  | none =>
    let t ← rules .type
    let _ ← accept "?"
    close .type a [t]

/-- The end of a member of an object type. -/
def memberEnd : Parser Unit := do
  if ← acceptOneOf [";", ","] then return
  if (← at? "\x7d") || (← onNewLine) then return
  failure

/-- The text of a template up to its end, with what it substitutes. -/
def templateParts (goal : Goal) : Parser Tree := do
  let a ← start
  guardThat (← at? "`")
  let parts ← repeated do
    let c ← here
    match templateChunk c.rest c.stop with
    | none => failure
    | some (cs, pos, false) =>
      set (c.jump pos cs)
      return none
    | some (cs, pos, true) =>
      set (c.jump pos cs)
      let t ← rules goal
      guardThat (← at? "\x7d")
      return some t
  let c ← here
  return .node .plain .template a c.previous parts

end SceneSync.Script.Grammar
