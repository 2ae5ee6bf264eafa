import SceneSync.Text.Quoted

/-!
# Paths

A path is an anchor and names. Reading a path drops empty names and `.` but
keeps `..`, which only `absolute` resolves, by the names alone and without a
file system. Two slashes at the front are an anchor of their own; three or more
are one.
-/

namespace SceneSync

inductive Anchor where
  | relative | root | doubleRoot
  deriving DecidableEq, Repr

def Anchor.text : Anchor → String
  | relative => ""
  | root => "/"
  | doubleRoot => "//"

structure Path where
  anchor : Anchor
  names : List String
  deriving DecidableEq, Repr

namespace Path

/-- The pieces between slashes. -/
def splitSlash : List Char → List (List Char)
  | [] => [[]]
  | c :: cs =>
    if c == '/' then [] :: splitSlash cs
    else match splitSlash cs with
      | p :: ps => (c :: p) :: ps
      | [] => [[c]]

def anchorOf : List Char → Anchor
  | '/' :: '/' :: '/' :: _ => .root
  | '/' :: '/' :: _ => .doubleRoot
  | '/' :: _ => .root
  | _ => .relative

def ofString (s : String) : Path :=
  let names := ((splitSlash s.toList).map String.ofList).filter (fun n => n != "" && n != ".")
  ⟨anchorOf s.toList, names⟩

def toString (p : Path) : String :=
  if p.anchor == .relative && p.names.isEmpty then "."
  else p.anchor.text ++ "/".intercalate p.names

instance : ToString Path := ⟨toString⟩

def isAbsolute (p : Path) : Bool := p.anchor != .relative

/-- The last name, or nothing for an anchor alone. -/
def name (p : Path) : String := p.names.getLast?.getD ""

def parent (p : Path) : Path := ⟨p.anchor, p.names.dropLast⟩

/-- `q` seen from `p`. -/
def join (p q : Path) : Path :=
  if q.isAbsolute then q else ⟨p.anchor, p.names ++ q.names⟩

def child (p : Path) (n : String) : Path := ⟨p.anchor, p.names ++ [n]⟩

/-- A name up to its last point, and the rest from that point on. -/
def splitLastPoint (cs : List Char) : Option (List Char × List Char) :=
  let tail := cs.reverse.takeWhile (· != '.')
  match cs.reverse.dropWhile (· != '.') with
  | _ :: front => some (front.reverse, '.' :: tail.reverse)
  | [] => none

/-- The stem and the suffix of a name. A suffix starts at the last point of the
name, which is neither its first nor its last character. -/
def splitName (n : String) : String × String :=
  match splitLastPoint n.toList with
  | some (front, tail) =>
    if front.isEmpty || tail.length ≤ 1 then (n, "")
    else (String.ofList front, String.ofList tail)
  | none => (n, "")

def suffix (p : Path) : String := (splitName p.name).2

inductive NamingError where
  | invalidSuffix (suffix : String)
  | invalidName (name : String)
  | noName (path : Path)
  deriving DecidableEq, Repr

def NamingError.message : NamingError → String
  | invalidSuffix s => "Invalid suffix " ++ Text.literal s
  | invalidName n => "Invalid name " ++ Text.literal n
  | noName p => "PosixPath(" ++ Text.literal (Path.toString p) ++ ") has an empty name"

def replaceName (p : Path) (n : String) : Path := ⟨p.anchor, p.names.dropLast ++ [n]⟩

/-- The path with another suffix, or with none for the empty text. -/
def withSuffix (p : Path) (s : String) : Except NamingError Path :=
  let cs := s.toList
  if cs.contains '/' || (!cs.isEmpty && cs.head? != some '.') || s == "." then
    .error (.invalidSuffix s)
  else if p.name == "" then .error (.noName p)
  else .ok (p.replaceName ((splitName p.name).1 ++ s))

def withName (p : Path) (n : String) : Except NamingError Path :=
  if p.name == "" then .error (.noName p)
  else
    let q := ofString n
    if n == "" || n.toList.getLast? == some '/' || q.isAbsolute || q.names.length != 1 then
      .error (.invalidName n)
    else .ok (p.replaceName n)

/-- One name after the resolved names `done`, the last of them first. -/
def resolveStep (done : List String) (n : String) : List String :=
  if n == ".." then done.tail else n :: done

/-- The path seen from the directory `cwd`, an absolute path, with every `..`
resolved against the name before it. -/
def absolute (cwd p : Path) : Path :=
  let q := join cwd p
  ⟨q.anchor, (q.names.foldl resolveStep []).reverse⟩

/-- The names that lead from `base` to `p`, if `p` is `base` or lies below it. -/
def below? (base p : Path) : Option (List String) :=
  if base.anchor == p.anchor && base.names.isPrefixOf p.names then
    some (p.names.drop base.names.length)
  else none

def isAtOrBelow (base p : Path) : Bool := (below? base p).isSome

def isBelow (base p : Path) : Bool := p != base && isAtOrBelow base p

end Path

end SceneSync
