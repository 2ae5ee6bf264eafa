/-!
# YAML values

Scalars are kept as text. One that is empty, `~` or `null` is null, in quotes too.
A text of several documents is a sequence.
-/

namespace SceneSync

inductive Yaml where
  | null
  | scalar (text : String)
  | sequence (items : List Yaml)
  | mapping (entries : List (String × Yaml))
  deriving Repr

namespace Yaml

def ofText (s : String) : Yaml :=
  if s == "" || s == "~" || s == "null" then null else scalar s

def valueOf? (entries : List (String × Yaml)) (key : String) : Option Yaml := entries.lookup key

/-- Puts an entry in the place of an earlier one of its key, or else behind the
others. -/
def insert (entries : List (String × Yaml)) (key : String) (value : Yaml) :
    List (String × Yaml) :=
  if (valueOf? entries key).isSome then
    entries.map fun e => if e.1 == key then (key, value) else e
  else entries ++ [(key, value)]

end Yaml

end SceneSync
