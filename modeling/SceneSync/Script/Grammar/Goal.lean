import SceneSync.Script.Cursor

/-!
# Goals of the grammar

The parts of a script that may contain each other. Every rule of the grammar is
a plain function of the parser for the goals, which is closed over itself at the
end, in one place.
-/

namespace SceneSync.Script

/-- How an assignment expression is read. -/
structure Mode where
  /-- the operator `in` ends the expression, as in the head of a `for` -/
  noIn : Bool
  /-- a colon must follow, as between the marks of a conditional -/
  consequent : Bool
  deriving DecidableEq, Repr

def Mode.usual : Mode := ⟨false, false⟩

inductive Goal where
  | statement
  | block
  | expression (noIn : Bool)
  | assignment (mode : Mode)
  /-- operands joined by operators that bind at least as tightly as `level` -/
  | operation (level : Nat) (noIn : Bool)
  | unary
  /-- a primary expression with its members, calls and templates -/
  | chain
  | construction
  | pattern
  | type
  /-- a type that is not conditional, unless in parentheses -/
  | plainType
  | typeOperand
  | markup
  deriving DecidableEq, Repr

abbrev Rules := Goal → Parser Tree

namespace Grammar

open Script.Parser

/-- Words that name nothing. -/
def reserved : List String :=
  ["break", "case", "catch", "class", "const", "continue", "debugger", "default", "delete",
   "do", "else", "enum", "export", "extends", "false", "finally", "for", "function", "if",
   "import", "in", "instanceof", "new", "null", "return", "super", "switch", "this",
   "throw", "true", "try", "typeof", "var", "void", "while", "with"]

def isReserved (w : String) : Bool := reserved.contains w

def isNameToken : Token → Bool
  | .name w => !isReserved w
  | _ => false

def isWordToken : Token → Bool
  | .name _ => true
  | _ => false

/-- A name that is not reserved. -/
def identifier : Parser Tree := do
  guardThat (isNameToken (← token))
  leaf .identifier

/-- Any name or keyword, as behind a point. -/
def anyName (k : Kind) : Parser Tree := do
  match ← token with
  | .name _ => leaf k
  | _ => failure

def stringLiteral : Parser Tree := do
  match ← token with
  | .string => leaf .string
  | _ => failure

def expression (rules : Rules) : Parser Tree := rules (.expression false)

def assignment (rules : Rules) : Parser Tree := rules (.assignment .usual)

/-- The key of a member of an object, a class or an object type. -/
def memberKey (rules : Rules) : Parser Tree := do
  match ← token with
  | .name _ => leaf .propertyIdentifier
  | .string => leaf .string
  | .number => leaf .number
  | .privateName => leaf .privateIdentifier
  | .punct "[" =>
    let a ← start
    advance
    let e ← assignment rules
    expect "]"
    close .computedProperty a [e]
  | _ => failure

end Grammar

end SceneSync.Script
