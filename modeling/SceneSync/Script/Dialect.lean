import SceneSync.Path

/-!
# Dialects

A script is plain or typed, and its file name says which. Only the typed dialect
has type annotations, and only there the scene's fields are declared.
-/

namespace SceneSync.Script

inductive Dialect where
  | plain | typed
  deriving DecidableEq, Repr

namespace Dialect

def name : Dialect → String
  | plain => "javascript"
  | typed => "typescript"

def extension : Dialect → String
  | plain => ".js"
  | typed => ".ts"

def all : List Dialect := [plain, typed]

def isTyped (d : Dialect) : Bool := d == typed

def ofPath? (p : Path) : Option Dialect :=
  all.find? (fun d => d.extension == p.suffix)

end Dialect

end SceneSync.Script
