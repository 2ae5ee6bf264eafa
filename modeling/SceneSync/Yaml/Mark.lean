/-!
# Places in a YAML text

A mark is the rest of a text and the column at which it stands, since columns say
what belongs to what. Between two tokens there are blanks, comments and line
ends.
-/

namespace SceneSync.Yaml

structure Mark where
  rest : List Char
  column : Nat

def isSpace (c : Char) : Bool := c == ' ' || c == '\t'

/-- Whether a token may end before these characters. -/
def atBreak : List Char → Bool
  | [] => true
  | c :: _ => isSpace c || c == '\n'

namespace Mark

/-- The mark behind the first `n` characters. -/
def skip : Nat → Mark → Mark
  | 0, m => m
  | _ + 1, ⟨[], k⟩ => ⟨[], k⟩
  | n + 1, ⟨c :: cs, k⟩ => skip n ⟨cs, if c == '\n' then 0 else k + 1⟩

def head? (m : Mark) : Option Char := m.rest.head?

def isEnd (m : Mark) : Bool := m.rest.isEmpty

def skipSpaces (m : Mark) : Mark := skip (m.rest.takeWhile isSpace).length m

/-- Whether a token of one character starts here: the character and a break. -/
def isMarker (m : Mark) (c : Char) : Bool :=
  match m.rest with
  | d :: ds => d == c && atBreak ds
  | [] => false

end Mark

/-- What separates two tokens: the mark at the second of them, and whether a line
has ended before it. -/
structure Separation where
  mark : Mark
  newLine : Bool

/-- Skips blanks, comments and line ends. A comment starts at a `#` behind a blank. -/
def separateFrom (cs : List Char) (column : Nat) (newLine blank comment : Bool) : Separation :=
  match cs with
  | [] => ⟨⟨[], column⟩, newLine⟩
  | c :: ds =>
    if c == '\n' then separateFrom ds 0 true true false
    else if comment then separateFrom ds (column + 1) newLine blank true
    else if isSpace c then separateFrom ds (column + 1) newLine true false
    else if c == '#' && blank then separateFrom ds (column + 1) newLine blank true
    else ⟨⟨c :: ds, column⟩, newLine⟩

def separate (m : Mark) : Separation :=
  separateFrom m.rest m.column (m.column == 0) (m.column == 0) false

end SceneSync.Yaml
