import SceneSync.Script.Grammar.Function
import SceneSync.Script.Grammar.TypeOperator

/-!
# Classes

A class body is a node of its own, since `this` means something else in it; what
a class extends stands outside of the body.
-/

namespace SceneSync.Script.Grammar

open Script.Parser

variable (rules : Rules)

/-- `C`, `C.D`, `C<T>` behind `implements` or an interface's `extends`. -/
def heritageType : Parser Tree := rules .typeOperand

/-- The base of a class: an expression, in the typed dialect with its type
arguments and the interfaces that the class implements. -/
def classHeritage : Parser (List Tree) := do
  let a ← start
  let base : List Tree ← if ← acceptWord "extends" then do
      let e ← rules .chain
      let ts ← if (← isTyped) && (← at? "<") then pure [← typeArguments rules] else pure []
      pure (e :: ts)
    else pure []
  let types ← if ← acceptTypedWord "implements"
    then commaList (heritageType rules) else pure []
  if base.isEmpty && types.isEmpty then return []
  return [← close .classHeritage a (base ++ types)]

/-- Words that may stand before the key of a member. -/
def memberModifiers (typed : Bool) : List String :=
  ["static", "async", "get", "set", "accessor"] ++
  if typed then ["public", "private", "protected", "override", "readonly", "abstract",
    "declare"] else []

/-- Whether the current word modifies the member that starts behind it, rather
than being its key. -/
def modifiesMember (w : String) : Parser Bool := do
  let (next, sameLine) ← ahead
  let free := w == "static" || w == "get" || w == "set"
  let keyAhead := match next with
    | .name _ | .string | .number | .privateName => true
    | .punct p => p == "[" || (p == "*" && (w == "async" || w == "static"))
    | _ => false
  return keyAhead && (free || sameLine)

def memberModifierRun : Parser (List String) := do
  let words := memberModifiers (← isTyped)
  repeated do
    match ← token with
    | .name w =>
      if words.contains w && (← modifiesMember w) then
        advance
        return some w
      return none
    | _ => return none

/-- A field from behind its key on. -/
def fieldTail : Parser (List Tree) := do
  let t ← optionalDeclaredType rules
  let v ← if ← accept "=" then pure [(← assignment rules).withRole .value] else pure []
  semicolon
  return t ++ v

/-- A method whose body may be missing, as of an overload or an abstract one. -/
def classMethodTail : Parser (List Tree) := do
  let s ← signature rules
  if (← isTyped) && !(← at? "\x7b") then
    semicolon
    return s
  let b ← functionBody rules
  return s ++ [b]

def classMember : Parser Tree := do
  let a ← start
  let ds ← decorators rules
  if (← atWord "static") && (← ahead).1 == .punct "\x7b" then
    advance
    let b ← rules .block
    return ← close .staticBlock a (ds ++ [b])
  let words ← memberModifierRun
  guardThat (words.eraseDups == words)
  let index : Parser Tree := do
    let s ← indexSignature rules
    semicolon
    return s
  let indexed ← if (← isTyped) && (← at? "[") then attempt index else pure none
  match indexed with
  | some s => close .indexSignature a (ds ++ [s])
  | none =>
    let generator ← accept "*"
    let k ← memberKey rules
    if ← isTyped then
      if !(← accept "?") then
        let _ ← accept "!"
    let k := k.withRole .name
    if (← at? "(") || ((← isTyped) && (← at? "<")) then
      let m ← classMethodTail rules
      close .methodDefinition a (ds ++ k :: m)
    else
      guardThat !(generator || words.contains "get" || words.contains "set" ||
        words.contains "async")
      let f ← fieldTail rules
      close .fieldDefinition a (ds ++ k :: f)

def classBody : Parser Tree := do
  let a ← start
  expect "\x7b"
  let ms ← repeated do
    if ← at? "\x7d" then return none
    if ← accept ";" then return some []
    return some [← classMember rules]
  expect "\x7d"
  close .classBody a ms.flatten

/-- A class from the word `class` on, behind its decorators. -/
def classTail (k : Kind) (a : Nat) (ds : List Tree) (nameNeeded : Bool) : Parser Tree := do
  expectWord "class"
  let named ← match ← token with
    | .name w => do pure (!isReserved w && !(w == "implements" && (← isTyped) && !nameNeeded))
    | _ => pure false
  let n ← if nameNeeded || named then pure [(← identifier).withRole .name] else pure []
  let ts ← optionalTypeParameters rules
  let h ← classHeritage rules
  let b ← classBody rules
  close k a (ds ++ n ++ ts ++ h ++ [b.withRole .body])

def classExpression : Parser Tree := do
  let a ← start
  let ds ← decorators rules
  classTail rules .classExpression a ds false

/-- A class statement; `abstract` only in the typed dialect. -/
def classDeclaration : Parser Tree := do
  let a ← start
  let ds ← decorators rules
  if ← acceptTypedWord "abstract" then
    classTail rules .abstractClassDeclaration a ds true
  else classTail rules .classDeclaration a ds true

end SceneSync.Script.Grammar
