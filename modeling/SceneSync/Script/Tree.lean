/-!
# Syntax trees of scripts

A node carries its kind, the role that it plays in its parent and the byte span
of its text. Punctuation, keywords and comments are not nodes: whatever lies in
the span of a node and in no child is read from the source.
-/

namespace SceneSync.Script

inductive Kind where
  -- statements
  | program | functionDeclaration | generatorFunctionDeclaration | functionSignature
  | classDeclaration | abstractClassDeclaration | exportStatement | exportClause
  | exportSpecifier | importStatement | importBinding | variableDeclaration
  | lexicalDeclaration | variableDeclarator | statementBlock | expressionStatement
  | ifStatement | forStatement | forInStatement | whileStatement | doStatement
  | switchStatement | switchCase | tryStatement | catchClause | finallyClause
  | returnStatement | throwStatement | breakStatement | continueStatement
  | labeledStatement | withStatement | debuggerStatement | emptyStatement
  -- declarations without run-time content
  | typeAliasDeclaration | interfaceDeclaration | enumDeclaration | enumMember
  | ambientDeclaration | namespaceDeclaration | importAlias
  -- functions and classes
  | functionExpression | generatorFunction | arrowFunction | formalParameters
  | requiredParameter | optionalParameter | classExpression | classHeritage | classBody
  | methodDefinition | methodSignature | fieldDefinition | staticBlock | indexSignature
  | decorator
  -- expressions
  | identifier | thisExpression | superExpression | literal | number | string | regex
  | template | memberExpression | subscriptExpression | callExpression | newExpression
  | arguments | propertyIdentifier | privateIdentifier | computedProperty
  | unaryExpression | updateExpression | binaryExpression | ternaryExpression
  | assignmentExpression | augmentedAssignment | sequenceExpression
  | parenthesizedExpression | yieldExpression | awaitExpression | spreadElement
  | array | object | pair | metaProperty | importCall | nonNullExpression | asExpression
  | satisfiesExpression | typeAssertion | instantiationExpression | markupElement
  | markupAttribute | markupContainer
  -- patterns
  | objectPattern | arrayPattern | restPattern | assignmentPattern
  | objectAssignmentPattern | pairPattern | shorthandName
  -- types
  | declaredType | typeArguments | typeParameters | typeParameter | typeQuery
  | typeIdentifier | functionType | objectType | type
  deriving DecidableEq, Repr

inductive Role where
  | plain | declaration | value | source | name | alias | parameters | body | object
  | property | callee | typeArguments | arguments | left | right | pattern | index
  deriving DecidableEq, Repr

inductive Tree where
  | node (role : Role) (kind : Kind) (start stop : Nat) (children : List Tree)
  deriving Repr

namespace Tree

def role : Tree → Role
  | node r _ _ _ _ => r

def kind : Tree → Kind
  | node _ k _ _ _ => k

def start : Tree → Nat
  | node _ _ a _ _ => a

def stop : Tree → Nat
  | node _ _ _ b _ => b

def children : Tree → List Tree
  | node _ _ _ _ cs => cs

def withRole (r : Role) : Tree → Tree
  | node _ k a b cs => node r k a b cs

def withKind (k : Kind) : Tree → Tree
  | node r _ a b cs => node r k a b cs

/-- The first child in the given role. -/
def child? (r : Role) (t : Tree) : Option Tree :=
  t.children.find? (fun c => c.role == r)

mutual
/-- A tree and its descendants, parents first and siblings in order. -/
def preorder : Tree → List Tree
  | node r k a b cs => node r k a b cs :: preorderAll cs

def preorderAll : List Tree → List Tree
  | [] => []
  | t :: ts => preorder t ++ preorderAll ts
end

mutual
/-- As `preorder`, without what lies below a node of a kind in `skip`. -/
def preorderOutside (skip : Kind → Bool) : Tree → List Tree
  | node r k a b cs =>
    node r k a b cs :: (if skip k then [] else preorderOutsideAll skip cs)

def preorderOutsideAll (skip : Kind → Bool) : List Tree → List Tree
  | [] => []
  | t :: ts => preorderOutside skip t ++ preorderOutsideAll skip ts
end

end Tree

end SceneSync.Script
