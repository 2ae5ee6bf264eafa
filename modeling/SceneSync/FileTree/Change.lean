import SceneSync.FileTree.Basic

/-!
# Changes of a file tree

Every change either happens or raises a fault of its path. What has changed before
a fault stays changed.
-/

namespace SceneSync

abbrev Change := ExceptT FileError (StateM FileTree)

namespace FileTree

def raise {α : Type} (f : FileFault) (p : Path) : Change α := throw ⟨f, p⟩

/-- The location of a path in the tree as it is. -/
def locate (follow : Bool) (p : Path) : Change Location := do
  match (← get).resolve follow p with
  | .ok l => return l
  | .error f => raise f p

/-- Writes a file, at the end of the links that lead to it. Its directory has to be
there. -/
def write (p : Path) (bytes : List UInt8) : Change Unit := do
  let l ← locate true p
  match (← get).get? l with
  | some .directory => raise .isDirectory p
  | _ => modify (·.put l (.file bytes))

def makeDirectory (p : Path) : Change Unit := do
  let l ← locate false p
  match (← get).get? l with
  | some _ => raise .occupied p
  | none => modify (·.put l .directory)

/-- Makes a directory unless it is there already. -/
def ensureDirectory (p : Path) : Change Unit :=
  tryCatch (makeDirectory p) fun e => do
    if e.fault == .missing || !(← get).isDirectory p then throw e

/-- As `ensureDirectory`, with the directories that lead to it; `names` are those of
the path, the last of them first. -/
def ensureDirectoriesAux (anchor : Anchor) : List String → Change Unit
  | [] => ensureDirectory ⟨anchor, []⟩
  | n :: ns =>
    tryCatch (ensureDirectory ⟨anchor, (n :: ns).reverse⟩) fun e => do
      if e.fault != .missing then throw e
      ensureDirectoriesAux anchor ns
      ensureDirectory ⟨anchor, (n :: ns).reverse⟩

def ensureDirectories (p : Path) : Change Unit := ensureDirectoriesAux p.anchor p.names.reverse

/-- Removes a file or a link. -/
def remove (p : Path) : Change Unit := do
  let l ← locate false p
  match (← get).get? l with
  | some .directory => raise .isDirectory p
  | some _ => modify (·.erase l)
  | none => raise .missing p

/-- Removes a directory in which nothing is left. -/
def removeDirectory (p : Path) : Change Unit := do
  let l ← locate false p
  match (← get).get? l with
  | some .directory =>
    if ((← get).namesIn l).isEmpty then modify (·.erase l) else raise .notEmpty p
  | some _ => raise .notDirectory p
  | none => raise .missing p

/-- Removes a directory with everything in it. What is in it goes first, and that may be
a link by which the path leads there. -/
def removeAll (p : Path) : Change Unit := do
  let l ← locate false p
  match (← get).get? l with
  | some .directory =>
    modify (·.clear l)
    removeDirectory p
  | some _ => raise .notDirectory p
  | none => raise .missing p

end FileTree

end SceneSync
