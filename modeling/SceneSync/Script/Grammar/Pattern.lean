import SceneSync.Script.Grammar.Type

/-!
# Patterns and parameters

What a declaration or a parameter binds. A plain parameter is its pattern, with a
default or not; a typed one is a parameter node around its pattern.
-/

namespace SceneSync.Script.Grammar

open Script.Parser

variable (rules : Rules)

def patternWithDefault : Parser Tree := do
  let a ← start
  let p ← rules .pattern
  if ← accept "=" then
    let v ← assignment rules
    close .assignmentPattern a [p.withRole .left, v.withRole .right]
  else return p

def restPattern : Parser Tree := do
  let a ← start
  expect "..."
  let p ← rules .pattern
  close .restPattern a [p]

def objectPatternMember : Parser Tree := do
  if ← at? "..." then return ← restPattern rules
  let a ← start
  let plainName := isNameToken (← token)
  let k ← memberKey rules
  if ← accept ":" then
    let v ← patternWithDefault rules
    close .pairPattern a [k.withRole .name, v.withRole .value]
  else
    guardThat plainName
    let n := k.withKind .shorthandName
    if ← accept "=" then
      let v ← assignment rules
      close .objectAssignmentPattern a [n.withRole .left, v.withRole .right]
    else return n

def objectPattern : Parser Tree := do
  let a ← start
  expect "\x7b"
  let ms ← listUntil "\x7d" (objectPatternMember rules)
  close .objectPattern a ms

/-- The elements between brackets, where an element may be left out. -/
def sparseList (item : Parser Tree) : Parser (List Tree) := do
  let items ← repeated do
    if ← at? "]" then return none
    if ← accept "," then return some []
    let x ← item
    if !(← at? "]") then expect ","
    return some [x]
  expect "]"
  return items.flatten

def arrayPattern : Parser Tree := do
  let a ← start
  expect "["
  let es ← sparseList do
    if ← at? "..." then restPattern rules else patternWithDefault rules
  close .arrayPattern a es

def pattern : Parser Tree := do
  if ← at? "\x7b" then objectPattern rules
  else if ← at? "[" then arrayPattern rules
  else identifier

def modifiers : List String := ["public", "private", "protected", "override", "readonly"]

/-- `@name`, `@name.member`, `@call(…)`, `@(expression)`. -/
def decorator : Parser Tree := do
  let a ← start
  expect "@"
  let e ← if ← at? "(" then do
      expect "("
      let e ← expression rules
      expect ")"
      pure [e]
    else do
      let n ← anyName .identifier
      let ns ← repeated do
        if ← accept "." then
          match ← token with
          | .privateName => return some (← leaf .privateIdentifier)
          | _ => return some (← anyName .propertyIdentifier)
        return none
      let ts ← if (← isTyped) && (← at? "<") then pure [← typeArguments rules] else pure []
      let args ← if ← accept "(" then
          listUntil ")" do
            let _ ← accept "..."
            assignment rules
        else pure []
      pure (n :: ns ++ ts ++ args)
  close .decorator a e

def decorators : Parser (List Tree) :=
  repeated do
    if ← at? "@" then return some (← decorator rules)
    return none

/-- Whether a word that may be a modifier stands before what it modifies. -/
def modifies : Parser Bool := do
  match (← ahead).1 with
  | .name _ => return true
  | .punct p => return p == "\x7b" || p == "[" || p == "..."
  | _ => return false

def typedParameter : Parser Tree := do
  let a ← start
  let ds ← decorators rules
  let _ ← repeated do
    match ← token with
    | .name w =>
      if modifiers.contains w && (← modifies) then
        advance
        return some ()
      return none
    | _ => return none
  let p ← if ← at? "..." then restPattern rules
    else if ← atWord "this" then leaf .thisExpression
    else rules .pattern
  let optional ← accept "?"
  let t ← optionalDeclaredType rules
  let v ← if ← accept "=" then pure [(← assignment rules).withRole .value] else pure []
  close (if optional then .optionalParameter else .requiredParameter) a
    (ds ++ p.withRole .pattern :: t ++ v)

def parameter : Parser Tree := do
  if ← isTyped then typedParameter rules
  else if ← at? "..." then restPattern rules
  else patternWithDefault rules

def formalParameters : Parser Tree := do
  let a ← start
  expect "("
  let ps ← listUntil ")" (parameter rules)
  close .formalParameters a ps

end SceneSync.Script.Grammar
