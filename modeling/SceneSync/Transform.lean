import SceneSync.Script.Conversion
import SceneSync.Work

/-!
# Transforming scripts

A script is converted when it lies in the conversion directory, exports no class
and has a function at its top. Its descriptor stands beside it and gives the
fields that the editor makes public.
-/

namespace SceneSync

structure ScriptOptions where
  /-- scripts outside of it are left alone; without it all are -/
  conversionDir : Option Path
  context : String
  sceneType : String
  extension : String
  maxDepth : Int
  deriving DecidableEq, Repr

namespace ScriptOptions

def usual : ScriptOptions :=
  ⟨none, Script.ConversionOptions.usual.context, Script.ConversionOptions.usual.sceneType,
    Descriptor.extension, Descriptor.usualMaxDepth⟩

def conversionOptions (o : ScriptOptions) : Script.ConversionOptions := ⟨o.context, o.sceneType⟩

/-- Whether a path is that of a script in the conversion directory, seen from `cwd`. -/
def isEligible (o : ScriptOptions) (cwd p : Path) : Bool :=
  (Script.Dialect.ofPath? p).isSome &&
    o.conversionDir.any fun d => (Path.absolute cwd d).isAtOrBelow (Path.absolute cwd p)

end ScriptOptions

inductive Unchanged where
  | notEligible | exportsClass | noFunctions
  deriving DecidableEq, Repr

def Unchanged.reason : Unchanged → String
  | notEligible => "not a script under the conversion directory"
  | exportsClass => "exports a class"
  | noFunctions => "declares no functions"

inductive Transformed where
  | converted (result : Script.Converted)
  | unchanged (why : Unchanged)
  deriving DecidableEq, Repr

namespace Transform

def logName : String := "phaserflow.transformer"

/-- The fields that the descriptor of a script makes public; none without one. -/
def descriptorFields (script : Path) (extension : String) (maxDepth : Int) :
    Work (List Field) := do
  let p ← Work.ofExcept .naming (Descriptor.pathOf script extension)
  if !((← Work.tree).isFile p) then return []
  let text ← Work.readMarkedText p
  let items ← Work.ofExcept (fun e => .descriptor ⟨some p, e⟩) (Descriptor.read maxDepth text)
  return Descriptor.fields items

/-- Transforms the text of the script at a path. -/
def run (o : ScriptOptions) (p : Path) (text : List Char) : Work Transformed := do
  if !o.isEligible (← Work.tree).current p then return .unchanged .notEligible
  match Script.Dialect.ofPath? p with
  | none => return .unchanged .notEligible
  | some d =>
    let located (e : ScriptFault) : Failure := .script ⟨some p, e⟩
    let s ← Work.ofExcept located (Script.read d text)
    if s.exportsClass then return .unchanged .exportsClass
    if s.sites.isEmpty then return .unchanged .noFunctions
    let members ← descriptorFields p o.extension o.maxDepth
    let r ← Work.ofExcept located (s.convert o.conversionOptions members)
    for w in r.warnings do
      Work.notify (.log .warning logName (p.toString ++ ": " ++ w))
    Work.notify (.log .debug logName
      ("Rewrote " ++ p.toString ++ " (" ++ toString r.fields.length ++ " scene fields)"))
    return .converted r

end Transform

end SceneSync
