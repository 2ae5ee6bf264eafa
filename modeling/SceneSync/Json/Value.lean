import SceneSync.Number.Shortest
import SceneSync.Text.Quoted

/-!
# JSON values

Values as they are read, with the members of an object in the order of their
first appearance, and the literal by which a message shows a value.
-/

namespace SceneSync

inductive Json where
  | null
  | bool (b : Bool)
  | integer (n : Int)
  | float (x : Number.Binary64)
  | string (s : String)
  | array (items : List Json)
  | object (members : List (String × Json))
  deriving Repr

namespace Json

/-- The member of an object under a key. -/
def member? (members : List (String × Json)) (key : String) : Option Json :=
  members.lookup key

/-- Puts a member in the place of an earlier one of its key, or else behind the
others. -/
def insert (members : List (String × Json)) (key : String) (value : Json) :
    List (String × Json) :=
  if (member? members key).isSome then
    members.map fun m => if m.1 == key then (key, value) else m
  else members ++ [(key, value)]

/-- Whether a value counts as absent: null, false, zero, or nothing inside. -/
def isFalsy : Json → Bool
  | null => true
  | bool b => !b
  | integer n => n == 0
  | float x => x.isZero
  | string s => s == ""
  | array xs => xs.isEmpty
  | object ms => ms.isEmpty

mutual
def literal : Json → String
  | null => "None"
  | bool b => if b then "True" else "False"
  | integer n => toString n
  | float x => x.literal
  | string s => Text.literal s
  | array xs => "[" ++ ", ".intercalate (literals xs) ++ "]"
  | object ms => "\x7b" ++ ", ".intercalate (memberLiterals ms) ++ "\x7d"

def literals : List Json → List String
  | [] => []
  | x :: xs => literal x :: literals xs

def memberLiterals : List (String × Json) → List String
  | [] => []
  | (k, v) :: ms => (Text.literal k ++ ": " ++ literal v) :: memberLiterals ms
end

end Json

end SceneSync
