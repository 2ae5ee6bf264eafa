import SceneSync.Path

/-!
# Faults in files
-/

namespace SceneSync

/-- A fault, and the file in which it was found. -/
structure Located (ε : Type) where
  path : Option Path
  fault : ε
  deriving DecidableEq, Repr

def Located.message {ε : Type} (text : ε → String) (e : Located ε) : String :=
  match e.path with
  | some p => p.toString ++ ": " ++ text e.fault
  | none => text e.fault

end SceneSync
