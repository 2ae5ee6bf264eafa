import SceneSync.Path

/-!
# File trees

A file tree says what stands at each location: a file, a directory or a symbolic
link. A location is the names that lead to it from the root, none of them a link
or `..`. Paths are resolved to locations name by name, through the links.
-/

namespace SceneSync

abbrev Location := List String

inductive Entry where
  | file (bytes : List UInt8)
  | directory
  | link (target : String)
  deriving DecidableEq, Repr

structure FileTree where
  /-- the directory that relative paths start from -/
  current : Path
  entries : List (Location × Entry)
  deriving DecidableEq, Repr

inductive FileFault where
  | missing | occupied | notDirectory | isDirectory | notEmpty | linkLoop
  deriving DecidableEq, Repr

namespace FileFault

def code : FileFault → Nat
  | missing => 2
  | occupied => 17
  | notDirectory => 20
  | isDirectory => 21
  | notEmpty => 39
  | linkLoop => 40

def text : FileFault → String
  | missing => "No such file or directory"
  | occupied => "File exists"
  | notDirectory => "Not a directory"
  | isDirectory => "Is a directory"
  | notEmpty => "Directory not empty"
  | linkLoop => "Too many levels of symbolic links"

end FileFault

/-- A fault, and the path in whose use it arose. -/
structure FileError where
  fault : FileFault
  path : Path
  deriving DecidableEq, Repr

def FileError.message (e : FileError) : String :=
  "[Errno " ++ toString e.fault.code ++ "] " ++ e.fault.text ++ ": " ++
    Text.literal e.path.toString

namespace FileTree

/-! ## Locations -/

/-- What stands at a location. The root is always a directory. -/
def get? (t : FileTree) (l : Location) : Option Entry :=
  if l.isEmpty then some .directory else t.entries.lookup l

/-- Puts an entry at a location, in place of what stands there. -/
def put (t : FileTree) (l : Location) (e : Entry) : FileTree :=
  if (t.entries.lookup l).isSome then
    { t with entries := t.entries.map fun x => if x.1 == l then (l, e) else x }
  else { t with entries := t.entries ++ [(l, e)] }

/-- Removes what stands at a location and below it. -/
def erase (t : FileTree) (l : Location) : FileTree :=
  { t with entries := t.entries.filter fun x => !l.isPrefixOf x.1 }

/-- Removes what stands below a location. -/
def clear (t : FileTree) (l : Location) : FileTree :=
  { t with entries := t.entries.filter fun x => x.1 == l || !l.isPrefixOf x.1 }

/-- The last name of `x`, if `x` stands directly in `l`. -/
def nameIn? (l x : Location) : Option String :=
  match x.getLast? with
  | some n => if x.dropLast == l then some n else none
  | none => none

/-- The names in a directory. -/
def namesIn (t : FileTree) (l : Location) : List String :=
  t.entries.filterMap fun x => nameIn? l x.1

/-- Puts an entry at the location that names lead to from `l`, with the directories on
the way. -/
def plantFrom (t : FileTree) (l : Location) (names : List String) (e : Entry) : FileTree :=
  match names with
  | [] => t
  | [n] => t.put (l ++ [n]) e
  | n :: ns =>
    let here := l ++ [n]
    let t := if (t.get? here).isSome then t else t.put here .directory
    plantFrom t here ns e

def plant (t : FileTree) (l : Location) (e : Entry) : FileTree := plantFrom t [] l e

/-- The entry at a location and those below it, by the names that lead to them from
`base`. -/
def under (t : FileTree) (base l : Location) : List (Location × Entry) :=
  (t.entries.filter fun x => l.isPrefixOf x.1).map fun x => (x.1.drop base.length, x.2)

/-! ## Paths -/

/-- How many links one path may lead through. -/
def maxLinks : Nat := 40

/-- The location that names lead to from a location, if everything before the last
name is there. Links are followed, the last one only when `follow` holds. -/
def resolveFrom (t : FileTree) (follow : Bool) (links : Nat) (l : Location)
    (names : List String) : Except FileFault Location :=
  match names with
  | [] => .ok l
  | n :: ns =>
    match t.get? l with
    | none => .error .missing
    | some .directory =>
      if n == ".." then resolveFrom t follow links l.dropLast ns
      else
        match t.get? (l ++ [n]) with
        | some (.link target) =>
          if ns.isEmpty && !follow then .ok (l ++ [n])
          else match links with
            | 0 => .error .linkLoop
            | k + 1 =>
              let p := Path.ofString target
              resolveFrom t follow k (if p.isAbsolute then [] else l) (p.names ++ ns)
        | some _ => resolveFrom t follow links (l ++ [n]) ns
        | none => if ns.isEmpty then .ok (l ++ [n]) else .error .missing
    | some _ => .error .notDirectory
termination_by (links, names.length)

/-- The location of a path, of which the last name may be missing. -/
def resolve (t : FileTree) (follow : Bool) (p : Path) : Except FileFault Location :=
  t.resolveFrom follow maxLinks (if p.isAbsolute then [] else t.current.names) p.names

/-- What stands at a path. -/
def find (t : FileTree) (follow : Bool) (p : Path) : Except FileFault Entry := do
  match t.get? (← t.resolve follow p) with
  | some e => return e
  | none => throw .missing

def isThere (t : FileTree) (p : Path) : Bool := (t.find true p).isOk

def isDirectory (t : FileTree) (p : Path) : Bool :=
  match t.find true p with
  | .ok .directory => true
  | _ => false

def isFile (t : FileTree) (p : Path) : Bool :=
  match t.find true p with
  | .ok (.file _) => true
  | _ => false

def isLink (t : FileTree) (p : Path) : Bool :=
  match t.find false p with
  | .ok (.link _) => true
  | _ => false

/-- The bytes of the file at a path. -/
def read (t : FileTree) (p : Path) : Except FileError (List UInt8) :=
  match t.find true p with
  | .ok (.file bytes) => .ok bytes
  | .ok _ => .error ⟨.isDirectory, p⟩
  | .error f => .error ⟨f, p⟩

/-- The names in the directory at a path. -/
def list (t : FileTree) (p : Path) : Except FileError (List String) :=
  match t.resolve true p with
  | .error f => .error ⟨f, p⟩
  | .ok l =>
    match t.get? l with
    | some .directory => .ok (t.namesIn l)
    | some _ => .error ⟨.notDirectory, p⟩
    | none => .error ⟨.missing, p⟩

end FileTree

end SceneSync
