import SceneSync.Failure
import SceneSync.FileTree.Change
import SceneSync.Text.Lines

/-!
# Work on a file tree

Work reads and changes a file tree, leaves notices on the way, and ends with a
result or a failure. What was done before a failure stays done.
-/

namespace SceneSync

inductive Level where
  | debug | info | warning
  deriving DecidableEq, Repr

def Level.name : Level → String
  | debug => "DEBUG"
  | info => "INFO"
  | warning => "WARNING"

inductive Notice where
  | log (level : Level) (source message : String)
  /-- text for the user -/
  | out (text : String)
  /-- text for the user about what went wrong -/
  | err (text : String)
  deriving DecidableEq, Repr

namespace Notice

def logLine? : Notice → Option String
  | log l s m => some (l.name ++ " " ++ s ++ ": " ++ m)
  | _ => none

end Notice

structure World where
  tree : FileTree
  notices : List Notice
  deriving DecidableEq, Repr

abbrev Work := ExceptT Failure (StateM World)

namespace Work

def tree : Work FileTree := do return (← get).tree

def notify (n : Notice) : Work Unit :=
  modify fun w => { w with notices := w.notices ++ [n] }

/-- Lets a change happen in the tree. -/
def change {α : Type} (c : Change α) : Work α := do
  let w ← get
  let (r, t) := c.run w.tree
  set { w with tree := t }
  match r with
  | .ok a => return a
  | .error e => throw (.file e)

def ofExcept {ε α : Type} (f : ε → Failure) : Except ε α → Work α
  | .ok a => return a
  | .error e => throw (f e)

/-- The bytes of a file. -/
def readBytes (p : Path) : Work (List UInt8) := do
  ofExcept .file ((← tree).read p)

/-- The text of a file in UTF-8, with line feeds at all line ends. -/
def readText (p : Path) : Work (List Char) := do
  let cs ← ofExcept .undecodable (Text.decode (← readBytes p))
  return Text.unifyLineEnds cs

/-- As `readText`, without a byte order mark at the head. -/
def readMarkedText (p : Path) : Work (List Char) := do
  let cs ← ofExcept .undecodable (Text.decodeMarked (← readBytes p))
  return Text.unifyLineEnds cs

/-- The path seen from the current directory. -/
def absolute (p : Path) : Work Path := do return Path.absolute (← tree).current p

end Work

end SceneSync
