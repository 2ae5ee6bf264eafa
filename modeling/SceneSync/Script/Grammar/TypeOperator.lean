import SceneSync.Script.Grammar.Pattern

/-!
# Composite types

Function types, object types and the operators between types.
-/

namespace SceneSync.Script.Grammar

open Script.Parser

variable (rules : Rules)

def functionType : Parser Tree := do
  let a ← start
  let _ ← acceptWord "abstract"
  let _ ← acceptWord "new"
  let ts ← if ← at? "<" then pure [← typeParameters rules] else pure []
  let ps ← formalParameters rules
  expect "=>"
  let r ← resultType rules
  close .functionType a (ts ++ [ps, r])

/-- A call, construct or method signature from its parameters on. -/
def signatureTail : Parser (List Tree) := do
  let ts ← if ← at? "<" then pure [← typeParameters rules] else pure []
  let ps ← formalParameters rules
  let r ← optionalResult rules
  return ts ++ ps :: r

/-- `[key: T]: U`, or `[K in T as U]: V` of a mapped type. -/
def indexSignature : Parser Tree := do
  let a ← start
  let _ ← acceptOneOf ["-", "+"]
  let _ ← acceptWord "readonly"
  expect "["
  let k ← anyName .identifier
  let key ← if ← acceptWord "in" then do
      let t ← rules .type
      let r ← if ← acceptWord "as" then pure [← rules .type] else pure []
      pure (t :: r)
    else do pure [← declaredType rules]
  expect "]"
  let _ ← acceptOneOf ["-", "+"]
  let _ ← accept "?"
  let t ← optionalDeclaredType rules
  close .indexSignature a (k :: key ++ t)

def objectTypeMember : Parser Tree := do
  let a ← start
  let other : Parser Tree := do
    if (← at? "(") || (← at? "<") then
      let s ← signatureTail rules
      close .methodSignature a s
    else
      let modified ← repeated do
        match ← token with
        | .name w =>
          if w == "readonly" || w == "get" || w == "set" || w == "new" then
            match (← ahead).1 with
            | .name _ | .string | .number | .punct "[" =>
              guardThat (w != "new")
              advance
              return some true
            | .punct "(" | .punct "<" =>
              if w == "new" then
                advance
                return some false
              return none
            | _ => return none
          return none
        | _ => return none
      if modified.contains false then
        let s ← signatureTail rules
        close .methodSignature a s
      else
        let k ← memberKey rules
        let _ ← accept "?"
        if (← at? "(") || (← at? "<") then
          let s ← signatureTail rules
          close .methodSignature a (k :: s)
        else
          let t ← optionalDeclaredType rules
          close .fieldDefinition a (k :: t)
  let m ← match ← attempt (indexSignature rules) with
    | some m => pure m
    | none => other
  memberEnd
  return m

/-- Members with separators behind them. One separator may stand in front. -/
def objectType : Parser Tree := do
  let a ← start
  expect "\x7b"
  let front ← acceptOneOf [";", ","]
  let ms ← repeated do
    if ← at? "\x7d" then return none
    return some (← objectTypeMember rules)
  guardThat !(front && ms.isEmpty)
  expect "\x7d"
  close .objectType a ms

def tupleType : Parser Tree := do
  let a ← start
  expect "["
  let es ← listUntil "]" (tupleElement rules)
  close .type a es

def parenthesizedType : Parser Tree := do
  let a ← start
  expect "("
  let t ← rules .type
  expect ")"
  close .type a [t]

def primaryType : Parser Tree := do
  match ← token with
  | .punct "(" => parenthesizedType rules
  | .punct "[" => tupleType rules
  | .punct "\x7b" => objectType rules
  | .punct "`" => templateParts rules .type
  | .punct "-" =>
    let a ← start
    advance
    guardThat ((← token) == .number)
    let n ← leaf .number
    close .type a [n]
  | .number => leaf .number
  | .string => leaf .string
  | .name "typeof" => typeQuery rules
  | .name "import" => importedType rules
  | .name _ => namedType rules
  | _ => failure

/-- `T[]` and `T[K]`. -/
def indexedType : Parser Tree := do
  let a ← start
  let t ← primaryType rules
  let steps ← repeated do
    if (← at? "[") && !(← onNewLine) then
      advance
      if ← accept "]" then return some ([], (← here).previous)
      let i ← rules .type
      expect "]"
      return some ([i], (← here).previous)
    return none
  return steps.foldl (fun t s => .node .plain .type a s.2 (t :: s.1)) t

def typeOperators : List String := ["keyof", "unique", "readonly"]

def typeOperand : Parser Tree := do
  let a ← start
  match ← token with
  | .name w =>
    let operand ← match (← ahead).1 with
      | .name o => pure (o != "extends" && o != "is")
      | .punct p => pure (["(", "[", "\x7b", "`"].contains p)
      | .string | .number => pure true
      | _ => pure false
    if typeOperators.contains w && operand then
      advance
      let t ← rules .typeOperand
      close .type a [t]
    else if w == "infer" && operand then
      advance
      let n ← identifier
      let bound : Parser Tree := do
        expectWord "extends"
        let t ← rules .plainType
        guardThat !(← at? "?")
        return t
      let b ← attempt bound
      close .typeParameter a (n :: b.toList)
    else indexedType rules
  | _ => indexedType rules

/-- Operands between `separator`, which may also stand in front. -/
def typeSeries (separator : String) (item : Parser Tree) : Parser Tree := do
  let a ← start
  let front ← accept separator
  let t ← item
  let ts ← repeated do
    if ← accept separator then return some (← item)
    return none
  if ts.isEmpty && !front then return t
  close .type a (t :: ts)

def isFunctionTypeAhead : Parser Bool := do
  match ← token with
  | .name "new" => return true
  | .name "abstract" => return (← ahead).1 == .name "new"
  | .punct p => return p == "(" || p == "<"
  | _ => return false

def unionType : Parser Tree :=
  typeSeries "|" (typeSeries "&" do
    if ← isFunctionTypeAhead then
      match ← attempt (functionType rules) with
      | some t => return t
      | none => rules .typeOperand
    else rules .typeOperand)

def plainType : Parser Tree := unionType rules

def type : Parser Tree := do
  let a ← start
  let t ← plainType rules
  if (← atWord "extends") && !(← onNewLine) then
    advance
    let u ← rules .plainType
    expect "?"
    let x ← rules .type
    expect ":"
    let y ← rules .type
    close .type a [t, u, x, y]
  else return t

end SceneSync.Script.Grammar
