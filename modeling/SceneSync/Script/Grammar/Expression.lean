import SceneSync.Script.Grammar.Literal
import SceneSync.Script.Grammar.Markup
import SceneSync.Script.Grammar.Operator

/-!
# Expressions

An expression is read as far as it goes. Parentheses are first taken as an
expression, and as parameters when an arrow follows or nothing else fits.
-/

namespace SceneSync.Script.Grammar

open Script.Parser

variable (rules : Rules)

def parenthesized : Parser Tree := do
  let a ← start
  expect "("
  let e ← expression rules
  expect ")"
  close .parenthesizedExpression a [e]

def arguments : Parser Tree := do
  let a ← start
  expect "("
  let es ← listUntil ")" (argument rules)
  return (← close .arguments a es).withRole .arguments

/-- Type arguments of an expression, unless the mark is a comparison. -/
def calledTypeArguments : Parser (Option Tree) := do
  if (← isTyped) && (← at? "<") then
    attempt do
      let ts ← typeArguments rules
      guardThat (endsTypeArguments (← here))
      return ts.withRole .typeArguments
  else return none

/-- What is put behind an expression: the kind of the new node, the role that the
expression has in it, its other children, and its end. -/
structure Step where
  kind : Kind
  role : Role
  others : List Tree
  stop : Nat

def Step.apply (a : Nat) (t : Tree) (s : Step) : Tree :=
  .node .plain s.kind a s.stop (t.withRole s.role :: s.others)

def step (k : Kind) (r : Role) (others : List Tree) : Parser (Option Step) := do
  return some ⟨k, r, others, (← here).previous⟩

def memberStep : Parser (Option Step) := do
  let n ← match ← token with
    | .privateName => leaf .privateIdentifier
    | _ => anyName .propertyIdentifier
  step .memberExpression .object [n.withRole .property]

def subscriptStep : Parser (Option Step) := do
  expect "["
  let i ← expression rules
  expect "]"
  step .subscriptExpression .object [i.withRole .index]

def callStep (ts : List Tree) : Parser (Option Step) := do
  let es ← if ← at? "`" then templateParts rules (.expression false) else arguments rules
  step .callExpression .callee (ts ++ [es])

/-- The next step; without `calls` only members and templates, as behind `new`. -/
def chainStep (calls : Bool) : Parser (Option Step) := do
  if ← accept "." then return ← memberStep
  if ← at? "[" then return ← subscriptStep rules
  if ← at? "`" then return ← callStep rules []
  if calls && (← at? "(") then return ← callStep rules []
  if calls && (← at? "?.") then
    advance
    if ← at? "[" then return ← subscriptStep rules
    let ts ← if (← isTyped) && (← at? "<") then pure [← typeArguments rules] else pure []
    if (← at? "(") || (← at? "`") then return ← callStep rules ts
    return ← memberStep
  if (← isTyped) && (← at? "!") && !(← onNewLine) then
    advance
    return ← step .nonNullExpression .plain []
  if calls then
    match ← calledTypeArguments rules with
    | none => return none
    | some ts =>
      if (← at? "(") || (← at? "`") then return ← callStep rules [ts]
      return ← step .instantiationExpression .plain [ts]
  return none

def chainFrom (a : Nat) (t : Tree) (calls : Bool) : Parser Tree := do
  let steps ← repeated (chainStep rules calls)
  return steps.foldl (Step.apply a) t

/-- `import(…)`, `import.meta` or another property of the word. -/
def importExpression : Parser Tree := do
  let a ← start
  expectWord "import"
  if ← accept "." then
    let _ ← anyName .propertyIdentifier
    close .metaProperty a []
  else
    let es ← arguments rules
    close .importCall a [es]

def primary : Parser Tree := do
  match ← token with
  | .number => leaf .number
  | .string => leaf .string
  | .punct "`" => templateParts rules (.expression false)
  | .punct "(" => parenthesized rules
  | .punct "[" => arrayLiteral rules
  | .punct "\x7b" => objectLiteral rules
  | .punct "/" | .punct "/=" => regexLiteral
  | .punct "@" => classExpression rules
  | .punct "<" =>
    guardThat !(← isTyped)
    let e ← rules .markup
    expect ">"
    return e
  | .name w =>
    if w == "this" then leaf .thisExpression
    else if w == "super" then leaf .superExpression
    else if w == "null" || w == "true" || w == "false" || w == "undefined" then leaf .literal
    else if w == "class" then classExpression rules
    else if w == "import" then importExpression rules
    else if ← atFunction then functionExpression rules
    else identifier
  | _ => failure

/-- `new C(…)`, `new C<T>`, `new.target`. -/
def construction : Parser Tree := do
  let a ← start
  expectWord "new"
  if ← accept "." then
    let _ ← anyName .propertyIdentifier
    return ← close .metaProperty a []
  let b ← start
  let head ← if ← atWord "new" then rules .construction else primary rules
  let c ← chainFrom rules b head false
  let ts ← calledTypeArguments rules
  let es ← if ← at? "(" then pure [← arguments rules] else pure []
  close .newExpression a (c.withRole .callee :: ts.toList ++ es)

def chain : Parser Tree := do
  let a ← start
  let t ← if ← atWord "new" then rules .construction else primary rules
  chainFrom rules a t true

/-- A step up or down behind an operand, on its line. -/
def postfixFrom (a : Nat) (t : Tree) : Parser Tree := do
  if ((← at? "++") || (← at? "--")) && !(← onNewLine) then
    advance
    close .updateExpression a [t]
  else return t

def prefixed (k : Kind) : Parser Tree := do
  let a ← start
  advance
  let t ← rules .unary
  close k a [t]

def unaryMarks : List String := ["+", "-", "~", "!"]

def unaryWords : List String := ["delete", "void", "typeof"]

def unary : Parser Tree := do
  let a ← start
  match ← token with
  | .punct p =>
    if unaryMarks.contains p then return ← prefixed rules .unaryExpression
    if p == "++" || p == "--" then return ← prefixed rules .updateExpression
    if p == "<" && (← isTyped) then
      if (← ahead).1 == .name "const" then
        advance
        advance
        expect ">"
        let t ← rules .unary
        return ← close .typeAssertion a [t]
      let ts ← typeArguments rules
      let t ← rules .unary
      return ← close .typeAssertion a [ts, t]
  | .name w =>
    if unaryWords.contains w then return ← prefixed rules .unaryExpression
    if w == "await" && startsExpression (← ahead).1 then
      match ← attempt (prefixed rules .awaitExpression) with
      | some t => return t
      | none => pure ()
  | .privateName =>
    guardThat ((← ahead).1 == .name "in")
    return ← leaf .privateIdentifier
  | _ => pure ()
  let t ← rules .chain
  postfixFrom a t

/-- Goes on with binary operators that bind at least as tightly as `level`. -/
def operationFrom (a level : Nat) (noIn : Bool) (t : Tree) : Parser Tree := do
  let steps ← repeated do
    let c ← here
    match operator? c noIn with
    | none => return none
    | some o =>
      if o.level < level then return none
      advanceOver o.extra
      if c.token == .name "as" || c.token == .name "satisfies" then
        if ← acceptWord "const" then return ← step .asExpression .plain []
        let u ← rules .type
        return ← step (if c.token == .name "as" then .asExpression else .satisfiesExpression)
          .plain [u]
      let u ← rules (.operation (if o.level == powerLevel then o.level else o.level + 1) noIn)
      step .binaryExpression .left [u.withRole .right]
  return steps.foldl (Step.apply a) t

def operation (level : Nat) (noIn : Bool) : Parser Tree := do
  let a ← start
  let t ← rules .unary
  operationFrom rules a level noIn t

/-- Goes on with the marks of a conditional. -/
def conditionalFrom (a : Nat) (mode : Mode) (t : Tree) : Parser Tree := do
  if ← accept "?" then
    let x ← rules (.assignment ⟨false, true⟩)
    expect ":"
    let y ← rules (.assignment mode)
    close .ternaryExpression a [t, x, y]
  else return t

/-- Goes on with an assignment to what has been read. -/
def assignmentFrom (a : Nat) (mode : Mode) (t : Tree) : Parser Tree := do
  if ← accept "=" then
    match toPattern? t with
    | none => failure
    | some p =>
      let v ← rules (.assignment mode)
      close .assignmentExpression a [p.withRole .left, v.withRole .right]
  else
    match augmented? (← here) with
    | none => return t
    | some extra =>
      guardThat (isTarget t.kind)
      advanceOver extra
      let v ← rules (.assignment mode)
      close .augmentedAssignment a [t.withRole .left, v.withRole .right]

def afterOperand (a : Nat) (mode : Mode) (t : Tree) : Parser Tree := do
  let t ← operationFrom rules a 1 mode.noIn t
  let t ← conditionalFrom rules a mode t
  assignmentFrom rules a mode t

def afterPrimary (a : Nat) (mode : Mode) (t : Tree) : Parser Tree := do
  let t ← chainFrom rules a t true
  let t ← postfixFrom a t
  afterOperand rules a mode t

def yieldExpression (mode : Mode) : Parser Tree := do
  let a ← start
  expectWord "yield"
  if ← accept "*" then
    let t ← rules (.assignment mode)
    return ← close .yieldExpression a [t]
  if !(← onNewLine) && startsExpression (← token) then
    let t ← rules (.assignment mode)
    return ← close .yieldExpression a [t]
  close .yieldExpression a []

/-- What starts with a parenthesis. -/
def parenthesisStart (mode : Mode) : Parser Tree := do
  let c ← here
  match ← attempt (parenthesized rules) with
  | none => arrow rules mode
  | some t =>
    if ← at? "=>" then
      set c
      return ← arrow rules mode
    if (← isTyped) && (← at? ":") then
      let d ← here
      set c
      match ← attempt (arrow rules mode) with
      | some f => return f
      | none => set d
    afterPrimary rules c.start mode t

def usualStart (mode : Mode) : Parser Tree := do
  let a ← start
  let t ← rules .unary
  afterOperand rules a mode t

def assignmentExpression (mode : Mode) : Parser Tree := do
  match ← token with
  | .punct "(" => parenthesisStart rules mode
  | .punct "<" =>
    if ← isTyped then
      match ← attempt (arrow rules mode) with
      | some f => return f
      | none => usualStart rules mode
    else usualStart rules mode
  | .name w =>
    let (next, sameLine) ← ahead
    if w == "yield" && !(next == .punct "=" || next == .punct "=>" || next == .punct ".") then
      return ← yieldExpression rules mode
    if next == .punct "=>" && isNameToken (.name w) then
      return ← nameArrow rules mode
    if w == "async" then
      match next with
      | .name v =>
        if sameLine && v != "function" && !isReserved v then
          match ← attempt (nameArrow rules mode) with
          | some f => return f
          | none => pure ()
      | .punct "(" | .punct "<" =>
        match ← attempt (arrow rules mode) with
        | some f => return f
        | none => pure ()
      | _ => pure ()
    usualStart rules mode
  | _ => usualStart rules mode

def sequence (noIn : Bool) : Parser Tree := do
  let a ← start
  let ts ← commaList (rules (.assignment ⟨noIn, false⟩))
  match ts with
  | [t] => return t
  | _ => close .sequenceExpression a ts

end SceneSync.Script.Grammar
