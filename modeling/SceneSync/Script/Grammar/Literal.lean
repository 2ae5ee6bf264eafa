import SceneSync.Script.Grammar.Class

/-!
# Literals

Array and object literals, regular expressions, and the literals that are read
as patterns when an assignment follows.
-/

namespace SceneSync.Script.Grammar

open Script.Parser

variable (rules : Rules)

def spreadElement : Parser Tree := do
  let a ← start
  expect "..."
  let e ← assignment rules
  close .spreadElement a [e]

def argument : Parser Tree := do
  if ← at? "..." then spreadElement rules else assignment rules

def arrayLiteral : Parser Tree := do
  let a ← start
  expect "["
  let es ← sparseList (argument rules)
  close .array a es

/-- Whether the current word modifies the member of an object behind it. -/
def modifiesProperty (w : String) : Parser Bool := do
  let (next, sameLine) ← ahead
  return (w == "get" || w == "set" || (w == "async" && sameLine)) &&
    (match next with
    | .name _ | .string | .number => true
    | .punct p => p == "[" || (p == "*" && w == "async")
    | _ => false)

/-- A member of an object literal. A name with a default is a member of patterns
only; a literal that keeps one is refused at the end. -/
def objectMember : Parser Tree := do
  if ← at? "..." then return ← spreadElement rules
  let a ← start
  let modified ← match ← token with
    | .name w => do
      if ← modifiesProperty w then
        advance
        pure true
      else pure false
    | _ => pure false
  let generator ← accept "*"
  let bare := isNameToken (← token) && !modified && !generator
  let k ← memberKey rules
  if (← at? "(") || ((← isTyped) && (← at? "<")) then
    let m ← methodTail rules
    close .methodDefinition a (k.withRole .name :: m)
  else
    guardThat !(modified || generator)
    if ← accept ":" then
      let v ← assignment rules
      close .pair a [k.withRole .name, v.withRole .value]
    else
      guardThat bare
      let n := k.withKind .shorthandName
      if ← accept "=" then
        let v ← assignment rules
        close .objectAssignmentPattern a [n.withRole .left, v.withRole .right]
      else return n

def objectLiteral : Parser Tree := do
  let a ← start
  expect "\x7b"
  let ms ← listUntil "\x7d" (objectMember rules)
  close .object a ms

/-- The characters after the body of a regular expression, whose opening slash
has been read. A slash in brackets does not close it. -/
def afterRegexBody : List Char → Bool → Option (List Char)
  | [], _ => none
  | '\\' :: c :: cs, b => if isLineEnd c then none else afterRegexBody cs b
  | c :: cs, b =>
    if isLineEnd c then none
    else if c == '/' && !b then some cs
    else afterRegexBody cs (if c == '[' then true else if c == ']' then false else b)

/-- A regular expression, read from the characters of a token that a slash opens. -/
def regexLiteral : Parser Tree := do
  let c ← here
  match afterRegexBody (c.here.drop 1) false with
  | none => failure
  | some cs =>
    let rest := cs.dropWhile continuesName
    let taken := c.here.take (c.here.length - rest.length)
    set (c.jump (c.start + width taken) rest)
    close .regex c.start []

/-- What may stand on the left of an assignment, literals apart. -/
def isTarget : Kind → Bool
  | .identifier | .memberExpression | .subscriptExpression | .parenthesizedExpression
  | .nonNullExpression => true
  | _ => false

mutual
/-- The pattern that a literal is when it is assigned to. -/
def toPattern? : Tree → Option Tree
  | .node r .array a b cs => (toPatterns? cs).map (.node r .arrayPattern a b)
  | .node r .object a b cs => (toPatterns? cs).map (.node r .objectPattern a b)
  | .node r .spreadElement a b cs => (toPatterns? cs).map (.node r .restPattern a b)
  | .node r .pair a b [k, v] => (toPattern? v).map fun w => .node r .pairPattern a b [k, w]
  | .node r .assignmentExpression a b cs => some (.node r .assignmentPattern a b cs)
  | .node r .shorthandName a b cs => some (.node r .shorthandName a b cs)
  | .node r .objectAssignmentPattern a b cs => some (.node r .objectAssignmentPattern a b cs)
  | .node r k a b cs => if isTarget k then some (.node r k a b cs) else none

def toPatterns? : List Tree → Option (List Tree)
  | [] => some []
  | t :: ts => do
    let p ← toPattern? t
    let ps ← toPatterns? ts
    return p :: ps
end

/-- A member of an object literal has a default, which only a pattern may hold. -/
def holdsDefault (t : Tree) : Bool :=
  t.preorder.any fun u => u.kind == .object &&
    u.children.any (fun v => v.kind == .objectAssignmentPattern)

end SceneSync.Script.Grammar
