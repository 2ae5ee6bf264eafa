import SceneSync.Script.Sites
import SceneSync.Text.Blank

/-!
# Instantiations

The locals of a function that are initialised by `new`, and which of them the
function publishes: those it assigns to a member of the scene of the same name.
Publication is a matter of names; nothing follows the value of the local.
-/

namespace SceneSync.Script

/-- A local initialised by `new`, at the byte of its declarator. -/
structure Instantiation where
  name : String
  type : String
  offset : Nat
  deriving DecidableEq, Repr

structure Publication where
  name : String
  /-- the types constructed under the name, each once, in the order of the source -/
  types : List String
  deriving DecidableEq, Repr

/-- The type when what `new` constructs has no name. -/
def anyType : String := "any"

/-- A name, or a chain of members of one. -/
def isMemberPath : Tree → Bool
  | .node _ .identifier _ _ _ => true
  | .node _ .memberExpression _ _ [object, property] =>
    property.kind == .propertyIdentifier && isMemberPath object
  | _ => false

/-- The type that a `new` expression constructs. -/
def constructedType (s : Script) (t : Tree) : String :=
  match t.child? .callee with
  | some c =>
    if isMemberPath c then
      let arguments := match t.child? .typeArguments with
        | some ts => s.text ts
        | none => []
      String.ofList (Text.squeeze (s.text c) ++ arguments)
    else anyType
  | none => anyType

def instantiation? (s : Script) (t : Tree) : Option Instantiation := do
  guard (t.kind == .variableDeclarator)
  let n ← t.child? .name
  let v ← t.child? .value
  guard (n.kind == .identifier && v.kind == .newExpression)
  return ⟨s.textString n, s.constructedType v, t.start⟩

def instantiations (s : Script) (body : Tree) : List Instantiation :=
  body.preorder.filterMap s.instantiation?

/-- Whether a node stands for the scene: `this`, or the scene's own name. -/
def isScene (s : Script) (context : String) (t : Tree) : Bool :=
  t.kind == .thisExpression || (t.kind == .identifier && s.textString t == context)

/-- The name under which an assignment publishes a local: `this.name = name`. -/
def publication? (s : Script) (context : String) (t : Tree) : Option String := do
  guard (t.kind == .assignmentExpression)
  let l ← t.child? .left
  let r ← t.child? .right
  guard (l.kind == .memberExpression && r.kind == .identifier)
  let o ← l.child? .object
  let p ← l.child? .property
  guard (s.isScene context o && p.kind == .propertyIdentifier && s.text p == s.text r)
  return s.textString r

/-- The locals that a body publishes, in the order of their first publication. -/
def publishedNames (s : Script) (context : String) (body : Tree) : List String :=
  let declared := (s.instantiations body).map (·.name)
  ((body.preorder.filterMap (s.publication? context)).filter declared.contains).eraseDups

def typesOf (records : List Instantiation) (name : String) : List String :=
  ((records.filter (·.name == name)).map (·.type)).eraseDups

def publications (s : Script) (context : String) (body : Tree) : List Publication :=
  let records := s.instantiations body
  (s.publishedNames context body).map fun n => ⟨n, typesOf records n⟩

/-- The types of the `new` expressions of the whole script. -/
def constructedTypes (s : Script) : List String :=
  (s.tree.preorder.filter (·.kind == .newExpression)).map s.constructedType

end SceneSync.Script
