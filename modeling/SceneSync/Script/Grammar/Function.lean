import SceneSync.Script.Grammar.Pattern

/-!
# Functions

Declarations, expressions and arrows. A function keeps its name, its parameters
and its body as children in roles of their own; a typed function may have no
body and is a signature then.
-/

namespace SceneSync.Script.Grammar

open Script.Parser

variable (rules : Rules)

/-- The parameters, with the type parameters and the result type around them. -/
def signature : Parser (List Tree) := do
  let ts ← optionalTypeParameters rules
  let ps ← formalParameters rules
  let r ← optionalResult rules
  return ts ++ ps.withRole .parameters :: r

def functionBody : Parser Tree := do
  return (← rules .block).withRole .body

/-- The word `async` in front of something on its line. -/
def optionalAsync : Parser Bool := do
  if (← atWord "async") && (← ahead).2 then acceptWord "async" else return false

def functionDeclaration : Parser Tree := do
  let a ← start
  let _ ← optionalAsync
  expectWord "function"
  let generator ← accept "*"
  let n ← identifier
  let s ← signature rules
  let head := n.withRole .name :: s
  if (← isTyped) && !(← at? "\x7b") then
    guardThat !generator
    closeStatement .functionSignature a head
  else
    let b ← functionBody rules
    closeDeclaration (if generator then .generatorFunctionDeclaration else .functionDeclaration)
      a (head ++ [b])

def functionExpression : Parser Tree := do
  let a ← start
  let _ ← optionalAsync
  expectWord "function"
  let generator ← accept "*"
  let n ← if isNameToken (← token) then pure [(← identifier).withRole .name] else pure []
  let s ← signature rules
  let b ← functionBody rules
  close (if generator then .generatorFunction else .functionExpression) a (n ++ s ++ [b])

/-- Whether a function starts here, with `async` or without. -/
def atFunction : Parser Bool := do
  if ← atWord "function" then return true
  return (← atWord "async") && (← ahead) == (.name "function", true)

/-- The mark `=>` and a body. -/
def arrowTail (mode : Mode) : Parser Tree := do
  expect "=>"
  let b ← if ← at? "\x7b" then rules .block else rules (.assignment mode)
  return b.withRole .body

/-- An arrow function of one bare name. -/
def nameArrow (mode : Mode) : Parser Tree := do
  let a ← start
  if (← atWord "async") && (← ahead).1 != .punct "=>" then
    advance
    guardThat !(← onNewLine)
  let p ← identifier
  let b ← arrowTail rules mode
  close .arrowFunction a [p, b]

/-- An arrow function with parentheses. Between the marks of a conditional a
result type counts only when a colon follows the function. -/
def arrow (mode : Mode) : Parser Tree := do
  let a ← start
  let _ ← acceptWord "async"
  let ts ← optionalTypeParameters rules
  let ps ← formalParameters rules
  let r ← optionalResult rules
  let b ← arrowTail rules mode
  guardThat (!mode.consequent || r.isEmpty || (← at? ":"))
  close .arrowFunction a (ts ++ ps :: r ++ [b])

/-- A method from its parameters on, with its body. -/
def methodTail : Parser (List Tree) := do
  let s ← signature rules
  let b ← functionBody rules
  return s ++ [b]

end SceneSync.Script.Grammar
