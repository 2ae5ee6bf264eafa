import SceneSync.Located
import SceneSync.Script.Parse

/-!
# Sources

A script that has been read: its text and the tree of it. Offsets count the
bytes of the text in UTF-8.
-/

namespace SceneSync

namespace Text

/-- The characters from byte `n` on. -/
def dropBytes : Nat → List Char → List Char
  | 0, cs => cs
  | _, [] => []
  | n + 1, c :: cs => dropBytes (n + 1 - c.utf8Size) cs

/-- The characters that start before byte `n`. -/
def takeBytes : Nat → List Char → List Char
  | 0, _ => []
  | _, [] => []
  | n + 1, c :: cs => c :: takeBytes (n + 1 - c.utf8Size) cs

end Text

inductive ScriptFault where
  /-- the source is no script of the dialect -/
  | invalid (dialect : Script.Dialect)
  /-- the text after a conversion is no script of the dialect -/
  | invalidResult (dialect : Script.Dialect)
  /-- a parameter that starts at the line and column binds the name -/
  | alreadyBound (name : String) (line column : Nat)
  deriving DecidableEq, Repr

def ScriptFault.message : ScriptFault → String
  | invalid d => "invalid " ++ d.name ++ " source"
  | invalidResult d => "rewrite produced invalid " ++ d.name
  | alreadyBound n l c =>
    "parameter pattern already binds '" ++ n ++ "' (line " ++ toString l ++ ", column " ++
      toString c ++ ")"

abbrev ScriptError := Located ScriptFault

structure Script where
  dialect : Script.Dialect
  source : List Char
  tree : Script.Tree

namespace Script

def read (dialect : Dialect) (source : List Char) : Except ScriptFault Script :=
  match parse? dialect source with
  | some t => .ok ⟨dialect, source, t⟩
  | none => .error (.invalid dialect)

/-- The text of a node. -/
def text (s : Script) (t : Tree) : List Char :=
  Text.takeBytes (t.stop - t.start) (Text.dropBytes t.start s.source)

def textString (s : Script) (t : Tree) : String := String.ofList (s.text t)

/-- The line and the column of a byte, both counted from one; columns are bytes. -/
def position (s : Script) (offset : Nat) : Nat × Nat :=
  let before := Text.takeBytes offset s.source
  let line := before.reverse.takeWhile (· != '\n')
  ((before.filter (· == '\n')).length + 1, width line + 1)

/-- The name that a node of a given kind declares, imports or exports. -/
def name? (s : Script) (t : Tree) : Option String := (t.child? .name).map s.textString

end Script

end SceneSync
