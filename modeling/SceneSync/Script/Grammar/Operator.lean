import SceneSync.Script.Grammar.Goal

/-!
# Operators

How tightly the binary operators bind, and which tokens write them. The
operators that start with `>` are put together from the characters, as the
scanner reads every `>` alone.
-/

namespace SceneSync.Script.Grammar

open Script.Parser

/-- A binary operator: how tightly it binds, and how many characters it has
behind its token. -/
structure Operator where
  level : Nat
  extra : Nat
  deriving DecidableEq, Repr

def powerLevel : Nat := 12

def punctLevel? : String → Option Nat
  | "??" => some 1
  | "||" => some 2
  | "&&" => some 3
  | "|" => some 4
  | "^" => some 5
  | "&" => some 6
  | "==" | "!=" | "===" | "!==" => some 7
  | "<" | "<=" => some 8
  | "<<" => some 9
  | "+" | "-" => some 10
  | "*" | "/" | "%" => some 11
  | "**" => some powerLevel
  | _ => none

/-- The operators that start with `>`, from the characters behind it. -/
def greater? : List Char → Option Operator
  | '>' :: '>' :: '=' :: _ => none
  | '>' :: '>' :: _ => some ⟨9, 2⟩
  | '>' :: '=' :: _ => none
  | '>' :: _ => some ⟨9, 1⟩
  | '=' :: _ => some ⟨8, 1⟩
  | _ => some ⟨8, 0⟩

/-- The words that are operators; those of the typed dialect take a type on their
right and stand on the line of their left operand. -/
def wordLevel? (c : Cursor) (noIn : Bool) : String → Option Nat
  | "in" => if noIn then none else some 8
  | "instanceof" => some 8
  | "as" | "satisfies" => if c.isTyped && !c.newline then some 8 else none
  | _ => none

def operator? (c : Cursor) (noIn : Bool) : Option Operator :=
  match c.token with
  | .punct ">" => greater? c.rest
  | .punct p => (punctLevel? p).map (⟨·, 0⟩)
  | .name w => (wordLevel? c noIn w).map (⟨·, 0⟩)
  | _ => none

/-- The number of characters behind `>` of an assignment that starts with it. -/
def greaterAssignment? : List Char → Option Nat
  | '>' :: '>' :: '=' :: _ => some 3
  | '>' :: '=' :: _ => some 2
  | _ => none

def assignmentOperators : List String :=
  ["+=", "-=", "*=", "/=", "%=", "**=", "<<=", "&=", "^=", "|=", "&&=", "||=", "??="]

/-- The characters of an assignment operator other than `=` behind its token. -/
def augmented? (c : Cursor) : Option Nat :=
  match c.token with
  | .punct ">" => greaterAssignment? c.rest
  | .punct p => if assignmentOperators.contains p then some 0 else none
  | _ => none

/-- Reads an operator with the ASCII characters behind its token. -/
def advanceOver (extra : Nat) : Parser Unit :=
  modify fun c => c.jump (c.stop + extra) (c.rest.drop extra)

/-- Whether an expression can start with the token. -/
def startsExpression : Token → Bool
  | .name w => !(["in", "instanceof", "as", "satisfies", "of"].contains w)
  | .privateName | .number | .string => true
  | .punct p => ["(", "[", "\x7b", "`", "+", "-", "~", "!", "++", "--", "<", "/", "/=",
      "@"].contains p
  | _ => false

/-- Whether type arguments may end before the cursor: a call or a template
follows, or something that could not go on a comparison. -/
def endsTypeArguments (c : Cursor) : Bool :=
  match c.token with
  | .punct "(" | .punct "`" => true
  | .punct "<" | .punct ">" | .punct "+" | .punct "-" => false
  | t => c.newline || (operator? c false).isSome || !startsExpression t

end SceneSync.Script.Grammar
