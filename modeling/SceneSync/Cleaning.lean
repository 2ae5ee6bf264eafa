import SceneSync.Synchronisation
import SceneSync.Text.Blank

/-!
# Cleaning a build

A build needs no more than the JSON files of the copied directory. What the
manifest of the build lists goes too, as long as it lies in the build.
-/

namespace SceneSync

structure Cleaned where
  removed : List Path
  /-- entries of the manifest that lead outside of the build -/
  refused : List String
  deriving DecidableEq, Repr

namespace Cleaning

def logName : String := "phaserflow.cleanup"

def manifestName : String := "publicroot"

def keptSuffix : String := ".json"

/-- Removes the files of other kinds from a directory and what is below it, and then
the directories that are left empty, the one at the top apart. What cannot be listed
is passed over. -/
def cleanBelow (dryRun : Bool) : Nat → Bool → Path → Work (List Path)
  | 0, _, _ => return []
  | depth + 1, isTop, directory => do
    let t ← Work.tree
    if !(t.list directory).isOk then return []
    let (directories, others) := Syncer.contents t directory
    let inner := (directories.filter fun n => !t.isLink (directory.child n)).mergeSort
    let below ← inner.mapM fun n => cleanBelow dryRun depth false (directory.child n)
    let files := (others.mergeSort.map directory.child).filter (·.suffix != keptSuffix)
    if !dryRun then
      files.forM fun f => Work.change (FileTree.remove f)
    if !isTop && !dryRun then
      let left ← Work.ofExcept .file ((← Work.tree).list directory)
      if left.isEmpty then Work.change (FileTree.removeDirectory directory)
    return below.flatten ++ files

def keepJson (directory : Path) (dryRun : Bool) : Work (List Path) := do
  cleanBelow dryRun ((← Work.tree).entries.length + 1) true directory

/-- The entries of a manifest: its lines without blanks around them, empty ones left
out. -/
def manifestEntries (text : List Char) : List String :=
  ((Text.lines text).filter (fun l => !(Text.trim l).isEmpty)).map fun l =>
    String.ofList (Text.trim (l.filter (· != '\r')))

def listed (directory : Path) : Work (List String) := do
  let p := directory.child manifestName
  if !(← Work.tree).isFile p then return []
  return manifestEntries (← Work.readText p)

/-- The absolute path that an entry names in a directory. -/
def entryPath (root : Path) (entry : String) : Path :=
  let relative := entry.toList.dropWhile fun c => c == '/' || c == '\\'
  Path.absolute root (Path.ofString (String.ofList relative))

/-- Removes what stands at a path, if anything does; whether it did. -/
def removeEntry (dryRun : Bool) (p : Path) : Work Bool := do
  let t ← Work.tree
  if !(t.isThere p || t.isLink p) then return false
  if !dryRun then
    if t.isDirectory p && !t.isLink p then Work.change (FileTree.removeAll p)
    else Work.change (FileTree.remove p)
  return true

def cleanEntries (dryRun : Bool) (root : Path) : List String → Work Cleaned
  | [] => return ⟨[], []⟩
  | e :: es => do
    let p := entryPath root e
    if root.isBelow p then
      let there ← removeEntry dryRun p
      let c ← cleanEntries dryRun root es
      return ⟨if there then p :: c.removed else c.removed, c.refused⟩
    else
      Work.notify (.log .warning logName
        ("Refusing to remove " ++ Text.literal e ++ ": outside of " ++ root.toString))
      let c ← cleanEntries dryRun root es
      return ⟨c.removed, e :: c.refused⟩

/-- Removes what the manifest of a directory lists, and the manifest. -/
def removeListed (directory : Path) (dryRun : Bool) : Work Cleaned := do
  let manifest := directory.child manifestName
  if !(← Work.tree).isFile manifest then return ⟨[], []⟩
  let root ← Work.absolute directory
  let c ← cleanEntries dryRun root (← listed directory)
  if !dryRun then Work.change (FileTree.remove manifest)
  return ⟨c.removed ++ [manifest], c.refused⟩

/-- Cleans the copied directory of a build, and what the manifest lists. -/
def clean (output : Path) (watchDirName : String) (dryRun : Bool) : Work Cleaned := do
  let copied := output.join (Path.ofString watchDirName)
  let files ← if (← Work.tree).isDirectory copied then keepJson copied dryRun
    else pure []
  let c ← removeListed output dryRun
  return ⟨files ++ c.removed, c.refused⟩

end Cleaning

end SceneSync
