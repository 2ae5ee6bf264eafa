import SceneSync.CommandLine.Reach
import SceneSync.FileTree.Difference

/-!
# The program

What the arguments can reach is read into a file tree, the command runs on that
tree, and what it changed there is written back. A watch ends after its first
pass.
-/

namespace SceneSync.Program

def textOf (l : Location) : String := (Path.mk .root l).toString

/-- Adds what stands at a location, of which only the last name may be a link, and
everything below it if `deep` holds. A link leads straight to the real location of
what it names, and one that names nothing leads to itself. -/
partial def collect (deep : Bool) (t : FileTree) (l : Location) : IO FileTree := do
  let path := (← IO.currentDir) / textOf l
  match (← path.symlinkMetadata).type with
  | .file => return t.plant l (.file (← IO.FS.readBinFile path).toList)
  | .dir =>
    let mut t := if (t.get? l).isSome then t else t.plant l .directory
    if deep then
      for e in ← path.readDir do
        t ← collect deep t (l ++ [e.fileName])
    return t
  | .symlink =>
    if ← path.pathExists then
      let target := (← IO.FS.realPath path).toString
      let t := t.plant l (.link target)
      let real := (Path.ofString target).names
      if (t.get? real).isSome then return t else collect deep t real
    else return t.plant l (.link (textOf l))
  | .other => return t

/-- Adds what a path leads through, and what stands at its end with everything below
it if `deep` holds. -/
def survey (deep : Bool) (t : FileTree) (p : Path) : IO FileTree := do
  let mut t := t
  let mut l : Location := if p.isAbsolute then [] else t.current.names
  for n in p.names do
    if n == ".." then l := l.dropLast
    else
      let next := l ++ [n]
      unless ← ((← IO.currentDir) / textOf next).pathExists do return t
      t ← collect false t next
      l := (t.resolveFrom true FileTree.maxLinks [] next).toOption.getD next
  collect deep t l

def remove (l : Location) : Entry → IO Unit
  | .directory => IO.FS.removeDir (textOf l)
  | _ => IO.FS.removeFile (textOf l)

def write (l : Location) : Entry → IO Unit
  | .directory => IO.FS.createDir (textOf l)
  | .file bytes => IO.FS.writeBinFile (textOf l) ⟨bytes.toArray⟩
  | .link _ => pure ()

/-- Makes the files be what they are in `u` instead of `t`. -/
def save (t u : FileTree) : IO Unit := do
  for l in t.lost u do
    (t.get? l).forM (remove l)
  for (l, e) in t.gained u do
    write l e

def misuse : String :=
  "Usage: " ++ CommandLine.programName ++ " [OPTIONS] COMMAND [ARGS]...\n\n" ++
  "Error: The arguments are no command.\n"

def explain (s : CommandLine.Session) : String :=
  match s.ending with
  | .misused => misuse
  | .failed e => "Error: " ++ e.message ++ "\n"
  | .exited _ => ""

end SceneSync.Program

open SceneSync in
def main (args : List String) : IO UInt32 := do
  let current := Path.ofString (← IO.currentDir).toString
  let mut t ← Program.collect false ⟨current, []⟩ current.names
  for p in CommandLine.argumentPaths args do
    t ← Program.survey false t p
  for p in CommandLine.reach t args do
    t ← Program.survey true t p
  let s := CommandLine.run t args
  Program.save t s.world.tree
  (← IO.getStdout).putStr s.out
  (← IO.getStderr).putStr (s.err ++ Program.explain s)
  return UInt32.ofNat s.code
