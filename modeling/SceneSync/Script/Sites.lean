import SceneSync.Script.Source

/-!
# Function sites

The functions at the top of a script: those that a scene calls, and that take
the scene when the script is converted.
-/

namespace SceneSync.Script

def isFunctionKind : Kind → Bool
  | .functionDeclaration | .generatorFunctionDeclaration | .functionSignature
  | .functionExpression => true
  | _ => false

def isDeclaredFunction (k : Kind) : Bool := isFunctionKind k && k != .functionExpression

def isClassKind : Kind → Bool
  | .classDeclaration | .abstractClassDeclaration | .classExpression => true
  | _ => false

/-- What an export statement exports by itself. -/
def exported? (t : Tree) : Option Tree :=
  match t.child? .declaration with
  | some d => some d
  | none => t.child? .value

structure Site where
  tree : Tree
  exported : Bool
  deriving Repr

namespace Site

def parameters? (s : Site) : Option Tree := s.tree.child? .parameters

def body? (s : Site) : Option Tree := s.tree.child? .body

end Site

def statements (s : Script) : List Tree := s.tree.children

/-- The local names in an export list; a list that takes its names from another
module has none. -/
def listedIn (s : Script) (t : Tree) : List String :=
  if t.kind == .exportStatement && (t.child? .source).isNone then
    (t.children.filter (·.kind == .exportClause)).flatMap fun c =>
      (c.children.filter (·.kind == .exportSpecifier)).filterMap s.name?
  else []

/-- The local names in the export lists at the top of the script. -/
def listedNames (s : Script) : List String := s.statements.flatMap s.listedIn

def siteOf? (s : Script) (t : Tree) : Option Site :=
  if isDeclaredFunction t.kind then
    some ⟨t, (s.name? t).any s.listedNames.contains⟩
  else if t.kind == .exportStatement then
    match exported? t with
    | some d => if isFunctionKind d.kind then some ⟨d, true⟩ else none
    | none => none
  else none

/-- The function sites in the order of the source. -/
def sites (s : Script) : List Site := s.statements.filterMap s.siteOf?

/-- Whether any statement exports a class, at the top or inside a namespace. -/
def exportsClass (s : Script) : Bool :=
  s.tree.preorder.any fun t =>
    t.kind == .exportStatement && (exported? t).any (fun d => isClassKind d.kind)

end SceneSync.Script
