import SceneSync.Text.Quoted

/-!
# Extensions of a scene

The fields that a script adds to its scene, and the type declaration that is
written for them. A name that is no plain identifier is written as a quoted key.
-/

namespace SceneSync

structure Field where
  name : String
  type : String
  deriving DecidableEq, Repr

namespace Field

def startsKey (c : Char) : Bool :=
  ('a' ≤ c && c ≤ 'z') || ('A' ≤ c && c ≤ 'Z') || c == '_' || c == '$'

def continuesKey (c : Char) : Bool := startsKey c || ('0' ≤ c && c ≤ '9')

def isPlainKey : List Char → Bool
  | [] => false
  | c :: cs => startsKey c && cs.all continuesKey

def key (name : String) : String :=
  if isPlainKey name.toList then name else String.ofList (Text.asciiString name.toList)

def render (f : Field) : String := key f.name ++ ": " ++ f.type ++ ";"

end Field

namespace Extensions

def typeName : String := "SceneExtensions"

/-- The declaration of the fields, one to a line. -/
def render (fields : List Field) : String :=
  "\n".intercalate
    (("export type " ++ typeName ++ " = \x7b") ::
      fields.map (fun f => "  " ++ f.render) ++ ["\x7d;"])

end Extensions

end SceneSync
