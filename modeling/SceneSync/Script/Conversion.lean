import SceneSync.Extensions
import SceneSync.Script.Instantiation
import SceneSync.Splice
import SceneSync.Text.Utf8

/-!
# Converting a script for its scene

A conversion exports the function sites, gives each of them the scene as a
parameter, puts that parameter in place of `this`, and in the typed dialect
declares the fields of the scene behind the script. Everything else is kept
byte by byte. The edits are collected from the tree of the script, and the
result has to be a script again.
-/

namespace SceneSync.Script

structure ConversionOptions where
  /-- the name of the scene parameter -/
  context : String
  /-- its type in the typed dialect -/
  sceneType : String
  deriving DecidableEq, Repr

def ConversionOptions.usual : ConversionOptions := ⟨"scene", "Phaser.Scene"⟩

structure Converted where
  text : List Char
  fields : List Field
  warnings : List String
  deriving DecidableEq, Repr

def bytesOf (s : String) : List UInt8 := Text.encode s.toList

/-- The edit that puts a text at a byte. -/
def insertion (offset : Nat) (text : String) : Edit := ⟨offset, offset, bytesOf text⟩

/-! ## Parameters -/

def sceneParameter (s : Script) (o : ConversionOptions) : String :=
  if s.dialect.isTyped then o.context ++ ": " ++ o.sceneType ++ " | any" else o.context

def isTypedParameter (k : Kind) : Bool := k == .requiredParameter || k == .optionalParameter

/-- What a parameter binds when it has no default: a typed parameter is wrapped
around it, and a plain one with a default has it on the left. -/
def parameterTarget? (p : Tree) : Option Tree :=
  if isTypedParameter p.kind then p.child? .pattern
  else if p.kind == .assignmentPattern then p.child? .left
  else some p

/-- Whether a parameter is the scene already. -/
def isSceneParameter (s : Script) (context : String) (p : Tree) : Bool :=
  (parameterTarget? p).any fun t => t.kind == .identifier && s.textString t == context

mutual
/-- The nodes of the names that a parameter or a pattern binds. -/
def bindings : Tree → List Tree
  | .node r k a b cs =>
    match k with
    | .identifier | .shorthandName => [.node r k a b cs]
    | .requiredParameter | .optionalParameter => boundInRole .pattern cs
    | .assignmentPattern | .objectAssignmentPattern => boundInRole .left cs
    | .pairPattern => boundInRole .value cs
    | .objectPattern | .arrayPattern | .restPattern => boundInAll cs
    | _ => []

/-- Those of the first node in a role. -/
def boundInRole (role : Role) : List Tree → List Tree
  | [] => []
  | t :: ts => if t.role == role then bindings t else boundInRole role ts

def boundInAll : List Tree → List Tree
  | [] => []
  | t :: ts => bindings t ++ boundInAll ts
end

def binds (s : Script) (context : String) (p : Tree) : Bool :=
  (bindings p).any fun t => s.textString t == context

def isReceiver (p : Tree) : Bool :=
  isTypedParameter p.kind && (p.child? .pattern).any (·.kind == .thisExpression)

/-- The edit that declares the scene in a parameter list, unless the scene is among
the parameters. It comes first, but behind a typed `this`. -/
def sceneParameterEdits (s : Script) (o : ConversionOptions) (site : Site) :
    Except ScriptFault (List Edit) :=
  match site.parameters? with
  | none => .ok []
  | some list =>
    let ps := list.children
    if ps.any (s.isSceneParameter o.context) then .ok []
    else match ps.find? (s.binds o.context) with
      | some p =>
        let (line, column) := s.position p.start
        .error (.alreadyBound o.context line column)
      | none =>
        let declaration := s.sceneParameter o
        match ps with
        | [] => .ok [insertion (list.start + 1) declaration]
        | p :: _ =>
          if isReceiver p then .ok [insertion p.stop (", " ++ declaration)]
          else .ok [insertion (list.start + 1) (declaration ++ ", ")]

/-! ## The scene itself -/

/-- The part of a node in which `this` would be the scene: the object of a member,
or the first argument of a construction. -/
def sceneUse? (t : Tree) : Option Tree :=
  match t.kind with
  | .memberExpression | .subscriptExpression => t.child? .object
  | .newExpression => (t.child? .arguments).bind (·.children.head?)
  | _ => none

/-- The places in a site where `this` is the scene. In the body of a class it is
something else. -/
def sceneUses (t : Tree) : List Tree :=
  ((t.preorderOutside (· == .classBody)).filterMap sceneUse?).filter
    (·.kind == .thisExpression)

def sceneUseEdits (o : ConversionOptions) (site : Site) : List Edit :=
  (sceneUses site.tree).map fun t => ⟨t.start, t.stop, bytesOf o.context⟩

def exportEdits (site : Site) : List Edit :=
  if site.exported then [] else [insertion site.tree.start "export "]

def siteEdits (s : Script) (o : ConversionOptions) (site : Site) :
    Except ScriptFault (List Edit) := do
  let parameters ← s.sceneParameterEdits o site
  return exportEdits site ++ parameters ++ sceneUseEdits o site

/-! ## Fields -/

/-- Joins the types published under a name to those known under it. -/
def addPublication (known : List Publication) (p : Publication) : List Publication :=
  if known.any (·.name == p.name) then
    known.map fun k => if k.name == p.name then ⟨k.name, (k.types ++ p.types).eraseDups⟩ else k
  else known ++ [p]

/-- What the sites publish, by name, in the order of the first publication. -/
def allPublications (s : Script) (context : String) : List Publication :=
  let bodies := s.sites.filterMap Site.body?
  (bodies.flatMap (s.publications context)).foldl addPublication []

def unionWarning (p : Publication) : String :=
  "'" ++ p.name ++ "' is published with different types (" ++ ", ".intercalate p.types ++
    "); declaring their union"

def repeatWarning (f : Field) : String :=
  "'" ++ f.name ++ "' is declared more than once; keeping the first declaration"

/-- Adds the members whose names are new, with a warning for every other one. -/
def addMembers : List Field → List Field → List Field × List String
  | fields, [] => (fields, [])
  | fields, m :: ms =>
    if fields.any (·.name == m.name) then
      let r := addMembers fields ms
      (r.1, repeatWarning m :: r.2)
    else addMembers (fields ++ [m]) ms

/-- The fields of the scene, first the published ones and then the members. -/
def fieldsOf (published : List Publication) (members : List Field) :
    List Field × List String :=
  let own := published.map fun p => Field.mk p.name (" | ".intercalate p.types)
  let warnings := (published.filter (fun p => 1 < p.types.length)).map unionWarning
  let r := addMembers own members
  (r.1, warnings ++ r.2)

/-! ## Declarations of an earlier conversion -/

def isBlankByte (b : UInt8) : Bool := b == 32 || b == 9 || b == 13 || b == 10

/-- Whether a statement is the type alias of the scene's fields. -/
def isOldAlias (s : Script) (t : Tree) : Bool :=
  let d := if t.kind == .exportStatement then t.child? .declaration else some t
  d.any fun d => d.kind == .typeAliasDeclaration && s.name? d == some Extensions.typeName

/-- The edit that removes a statement and the blanks before it, at the head of the
source also those behind it. -/
def removal (bytes : List UInt8) (t : Tree) : Edit :=
  let before := bytes.take t.start
  let start := before.length - (before.reverse.takeWhile isBlankByte).length
  let stop :=
    if start == 0 then t.stop + ((bytes.drop t.stop).takeWhile isBlankByte).length else t.stop
  ⟨start, stop, []⟩

def removalEdits (s : Script) : List Edit :=
  let bytes := Text.encode s.source
  (s.statements.filter s.isOldAlias).map (removal bytes)

/-! ## The conversion -/

/-- The edits of all sites, or the fault of the first that has one. -/
def allSiteEdits (s : Script) (o : ConversionOptions) : Except ScriptFault (List Edit) := do
  return (← s.sites.mapM (s.siteEdits o)).flatten

/-- The bytes of the script with the edits applied, each once. -/
def edited (s : Script) (edits : List Edit) : List UInt8 :=
  Edit.applyAll (Text.encode s.source) edits.eraseDups

/-- The text with the declaration of the fields behind it. -/
def withFields (text : List Char) (fields : List Field) : List Char :=
  if fields.isEmpty then text
  else Text.trimEnd text ++ "\n\n".toList ++ (Extensions.render fields).toList ++ ['\n']

/-- Edits begin and end between characters, so their result is read back. -/
def readBack (bytes : List UInt8) : List Char := (Text.decode bytes).toOption.getD []

def convert (s : Script) (o : ConversionOptions) (members : List Field) :
    Except ScriptFault Converted := do
  let siteEdits ← s.allSiteEdits o
  let (fields, warnings) :=
    if s.dialect.isTyped then fieldsOf (s.allPublications o.context) members else ([], [])
  let removals := if s.dialect.isTyped then s.removalEdits else []
  let text := withFields (readBack (s.edited (siteEdits ++ removals))) fields
  match parse? s.dialect text with
  | some _ => return ⟨text, fields, warnings⟩
  | none => throw (.invalidResult s.dialect)

/-- Reads a source and converts it. A fault of the source is at the path even when
that is empty; one of the conversion is at a path that is not. -/
def convertText (d : Dialect) (path : Option String) (source : List Char)
    (o : ConversionOptions) (members : List Field) : Except ScriptError Converted :=
  match read d source with
  | .error e => .error ⟨path.map Path.ofString, e⟩
  | .ok s => match s.convert o members with
    | .error e => .error ⟨(path.filter (· != "")).map Path.ofString, e⟩
    | .ok r => .ok r

end SceneSync.Script
