import SceneSync.Settings

/-!
# Synchronisation

A watched directory is reproduced in an output directory: files are copied, and
eligible scripts are converted. A target is written only when its bytes change.
What cannot be converted is copied and reported.
-/

namespace SceneSync

inductive Action where
  | createdDir | copied | transformed | skipped | removed | ignored
  deriving DecidableEq, Repr

namespace Action

/-- The actions in the order of a summary. -/
def all : List Action := [createdDir, copied, transformed, skipped, removed, ignored]

def name : Action → String
  | createdDir => "created_dir"
  | copied => "copied"
  | transformed => "transformed"
  | skipped => "skipped"
  | removed => "removed"
  | ignored => "ignored"

def words : Action → String
  | createdDir => "created dir"
  | a => a.name

end Action

/-- What happened to one source path. An error does not mean that nothing happened: a
script that cannot be converted is copied. -/
structure Outcome where
  source : Path
  action : Action
  target : Option Path
  error : Option String
  deriving DecidableEq, Repr

structure Report where
  outcomes : List Outcome
  deriving DecidableEq, Repr

namespace Report

def count (r : Report) (a : Action) : Nat := (r.outcomes.filter (·.action == a)).length

def failures (r : Report) : List Outcome := r.outcomes.filter (·.error.isSome)

def summary (r : Report) : String :=
  let counts := (Action.all.filter (r.count · != 0)).map fun a =>
    toString (r.count a) ++ " " ++ a.words
  let failed := if r.failures.isEmpty then [] else [toString r.failures.length ++ " failed"]
  if (counts ++ failed).isEmpty then "nothing to do" else ", ".intercalate (counts ++ failed)

end Report

/-- A configuration with its two directories as absolute paths. -/
structure Syncer where
  configuration : Configuration
  watchRoot : Path
  outputRoot : Path
  deriving DecidableEq, Repr

namespace Syncer

def logName : String := "phaserflow.sync"

def of (c : Configuration) (cwd : Path) : Syncer :=
  ⟨c, Path.absolute cwd c.watchDir, Path.absolute cwd c.outputDir⟩

/-- The path in the output directory for an absolute path in the watched one. -/
def outputPath (s : Syncer) (p : Path) : Except Failure Path :=
  match s.watchRoot.below? p with
  | some names => .ok ⟨s.outputRoot.anchor, s.outputRoot.names ++ names⟩
  | none => .error (.outside p s.watchRoot)

/-- Whether a text stands somewhere in another. -/
def occursIn (part : List Char) : List Char → Bool
  | [] => part.isEmpty
  | c :: cs => part.isPrefixOf (c :: cs) || occursIn part cs

def excludes (s : Syncer) (path : String) : Bool :=
  s.configuration.exclude.any fun p => occursIn p.toList path.toList

def target (s : Syncer) (source : Path) : Work Path := do
  Work.ofExcept id (s.outputPath (← Work.absolute source))

/-- Writes a file unless it holds the bytes already; whether it was written. -/
def update (target : Path) (bytes : List UInt8) : Work Bool := do
  let t ← Work.tree
  if t.isFile target then
    if (← Work.readBytes target) == bytes then return false
  Work.change do
    FileTree.ensureDirectories target.parent
    FileTree.write target bytes
  return true

/-- The text that a script is converted to, if it is. -/
def converted? (s : Syncer) (source : Path) : Work (Option (List Char)) := do
  let o := s.configuration.scriptOptions
  if !o.isEligible (← Work.tree).current source then return none
  let text ← Work.readText source
  match ← Transform.run o source text with
  | .converted r => return some r.text
  | .unchanged _ => return none

/-- Copies a file as it is. -/
def copy (source target : Path) (error : Option String) : Work Outcome := do
  let written ← update target (← Work.readBytes source)
  return ⟨source, if written then .copied else .skipped, some target, error⟩

def addFile (s : Syncer) (source target : Path) : Work Outcome := do
  let attempt : Work (Except Failure (Option (List Char))) := tryCatch
    (do return .ok (← s.converted? source))
    (fun e => if e.spoilsConversion then return .error e else throw e)
  match ← attempt with
  | .ok (some text) =>
    let written ← update target (Text.encode text)
    return ⟨source, if written then .transformed else .skipped, some target, none⟩
  | .ok none => copy source target none
  | .error e =>
    Work.notify (.log .warning logName
      ("Cannot transform " ++ source.toString ++ ", copying it unchanged: " ++ e.message))
    copy source target (some e.message)

/-- Brings the target of one path up to date. -/
def addAlone (s : Syncer) (source : Path) : Work Outcome := do
  let t ← Work.tree
  if s.excludes source.toString || !t.isThere source then
    return ⟨source, .ignored, none, none⟩
  let target ← s.target source
  if t.isDirectory source then
    if t.isDirectory target then return ⟨source, .skipped, some target, none⟩
    Work.change (FileTree.ensureDirectories target)
    return ⟨source, .createdDir, some target, none⟩
  s.addFile source target

/-- Brings the targets of the scripts of a descriptor up to date. -/
def addScriptsOf (s : Syncer) (descriptor : Path) : Work Unit := do
  for extension in Descriptor.scriptSuffixes do
    let script ← Work.ofExcept .naming (descriptor.withSuffix extension)
    if (← Work.tree).isFile script then
      let _ ← s.addAlone script

/-- As `addAlone`. For a descriptor file its scripts follow. -/
def add (s : Syncer) (source : Path) (follow : Bool) : Work Outcome := do
  let t ← Work.tree
  let outcome ← s.addAlone source
  if follow && source.suffix == s.configuration.extension &&
      !(s.excludes source.toString || !t.isThere source || t.isDirectory source) then
    s.addScriptsOf source
  return outcome

/-- Removes the target of a path that is gone. -/
def remove (s : Syncer) (source : Path) : Work Outcome := do
  if s.excludes source.toString then return ⟨source, .ignored, none, none⟩
  let target ← s.target source
  let t ← Work.tree
  if t.isDirectory target && !t.isLink target then
    Work.change (FileTree.removeAll target)
  else if t.isThere target || t.isLink target then
    Work.change (FileTree.remove target)
  else return ⟨source, .ignored, some target, none⟩
  Work.notify (.log .info logName ("Removed " ++ target.toString))
  if source.suffix == s.configuration.extension then s.addScriptsOf source
  return ⟨source, .removed, some target, none⟩

/-! ## A full pass -/

def warnFailed (path : String) (e : Failure) : Work Unit :=
  Work.notify (.log .warning logName ("Failed to synchronize " ++ path ++ ": " ++ e.message))

/-- As `add`; a fault of a file is reported as the outcome. -/
def addOrWarn (s : Syncer) (source : Path) (follow : Bool) : Work Outcome :=
  tryCatch (s.add source follow) fun e => do
    if !e.isFile then throw e
    warnFailed source.toString e
    return ⟨source, .ignored, none, some e.message⟩

/-- The directories in a directory, and the other names in it. What cannot be listed
has nothing in it. -/
def contents (t : FileTree) (directory : Path) : List String × List String :=
  match t.list directory with
  | .ok names => names.partition fun n => t.isDirectory (directory.child n)
  | .error _ => ([], [])

/-- Adds what is below a directory: its directories, its other entries, and then what
is below each of the directories that are no links. -/
def addBelow (s : Syncer) : Nat → Path → Work (List Outcome)
  | 0, _ => return []
  | depth + 1, directory => do
    let (directories, others) := contents (← Work.tree) directory
    let kept := (directories.filter fun n =>
      !s.excludes (directory.child n).toString).mergeSort
    let first ← kept.mapM fun n => s.addOrWarn (directory.child n) true
    let second ← others.mergeSort.mapM fun n => s.addOrWarn (directory.child n) false
    let below ← kept.mapM fun n => do
      if (← Work.tree).isLink (directory.child n) then return []
      s.addBelow depth (directory.child n)
    return first ++ second ++ below.flatten

/-- Synchronises the whole watched directory. No directory nests deeper than there
are entries. -/
def fullPass (s : Syncer) : Work Report := do
  let root ← s.addOrWarn s.watchRoot true
  let depth := (← Work.tree).entries.length + 1
  let below ← s.addBelow depth s.watchRoot
  return ⟨root :: below⟩

end Syncer

end SceneSync
