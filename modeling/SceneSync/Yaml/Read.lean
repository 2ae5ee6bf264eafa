import SceneSync.Yaml.Scalar
import SceneSync.Yaml.Value

/-!
# Reading YAML

Block and flow collections with scalars of every style. Tags and anchors are
dropped, and the last of several entries of one key counts. `none` stands for a
text that is no YAML.
-/

namespace SceneSync.Yaml

abbrev Reading := Option (Yaml × Mark)

def textValue (cs : List Char) : Yaml := ofText (String.ofList cs)

/-- Skips tags and anchors in front of a node. -/
def skipProperties : Nat → Separation → Separation
  | 0, s => s
  | bound + 1, s =>
    match s.mark.rest with
    | c :: _ =>
      if c == '!' || c == '&' then
        let text := s.mark.rest.takeWhile fun d => !(isSpace d || d == '\n')
        let t := separate (s.mark.skip text.length)
        skipProperties bound ⟨t.mark, s.newLine || t.newLine⟩
      else s
    | [] => s

/-! ## Flow collections -/

/-- A scalar in a flow collection; an alias stands for its own text. -/
def flowScalar (m : Mark) : Option (List Char × Mark) :=
  if isQuote m then quoted m
  else if m.head? == some '*' || startsPlain true m.rest then plain true (-1) m
  else none

/-- The value behind the colon of a flow entry, which may be missing. -/
def flowValue (node : Mark → Reading) (m : Mark) : Reading :=
  let s := separate m
  match s.mark.rest with
  | c :: _ => if c == ',' || c == '\x7d' || c == ']' then some (.null, m) else node s.mark
  | [] => none

/-- The items of a flow sequence. An item with a colon behind it is a mapping of one
entry. -/
def flowItems (node : Mark → Reading) : Nat → Mark → List Yaml → Reading
  | 0, _, _ => none
  | bound + 1, m, done => do
    let s := separate m
    if s.mark.head? == some ']' then return (.sequence done.reverse, s.mark.skip 1)
    let (v, after) ← node s.mark
    let t := separate after
    let (v, t) ← if t.mark.head? == some ':' then do
        let key ← keyOf? v
        let (w, u) ← flowValue node (t.mark.skip 1)
        pure (Yaml.mapping [(key, w)], separate u)
      else pure (v, t)
    match t.mark.head? with
    | some ',' => flowItems node bound (t.mark.skip 1) (v :: done)
    | some ']' => return (.sequence (v :: done).reverse, t.mark.skip 1)
    | _ => none
where
  keyOf? : Yaml → Option String
    | .scalar s => some s
    | .null => some ""
    | _ => none

/-- The entries of a flow mapping. -/
def flowEntries (node : Mark → Reading) :
    Nat → Mark → List (String × Yaml) → Reading
  | 0, _, _ => none
  | bound + 1, m, done => do
    let s := separate m
    if s.mark.head? == some '\x7d' then return (.mapping done, s.mark.skip 1)
    let (k, after) ← flowScalar (skipProperties s.mark.rest.length s).mark
    let t := separate after
    let (v, t) ← if t.mark.head? == some ':' then do
        let (w, u) ← flowValue node (t.mark.skip 1)
        pure (w, separate u)
      else pure (.null, t)
    let entries := insert done (String.ofList k) v
    match t.mark.head? with
    | some ',' => flowEntries node bound (t.mark.skip 1) entries
    | some '\x7d' => return (.mapping entries, t.mark.skip 1)
    | _ => none

/-- A node in a flow collection, with at most `depth` collections in it. -/
def flowNode : Nat → Mark → Reading
  | 0, _ => none
  | depth + 1, m => do
    let s := skipProperties m.rest.length ⟨m, false⟩
    match s.mark.head? with
    | some '[' => flowItems (flowNode depth) (m.rest.length + 1) (s.mark.skip 1) []
    | some '\x7b' => flowEntries (flowNode depth) (m.rest.length + 1) (s.mark.skip 1) []
    | some c =>
      if c == ',' || c == ']' || c == '\x7d' then
        guard (s.mark.column != m.column)
        return (.null, s.mark)
      let (text, after) ← flowScalar s.mark
      return (textValue text, after)
    | none => none

/-! ## Block collections -/

/-- The key at a mark, and the mark behind its colon. A key stands on one line. -/
def blockKey? (m : Mark) : Option (String × Mark) := do
  let (text, after) ←
    if isQuote m then do
      let (text, after) ← quoted m
      guard !((m.rest.take (m.rest.length - after.rest.length)).contains '\n')
      pure (text, after)
    else do
      guard (m.head? == some '*' || startsPlain false m.rest)
      let line := trimSpaces (plainLine false m.rest false)
      pure (line, m.skip line.length)
  let colon := after.skipSpaces
  guard (colon.isMarker ':')
  return (String.ofList text, colon.skip 1)

/-- The items of a block sequence at a column, from a dash on. -/
def blockItems (node : Int → Mark → Reading) (column : Nat) :
    Nat → Mark → List Yaml → Reading
  | 0, _, _ => none
  | bound + 1, m, done => do
    let after := m.skip 1
    let s := separate after
    let (v, behind) ←
      if s.mark.isEnd || (s.newLine && s.mark.column ≤ column) then pure (Yaml.null, after)
      else node column s.mark
    let t := separate behind
    if t.mark.isEnd then return (.sequence (v :: done).reverse, behind)
    guard t.newLine
    if t.mark.column == column && t.mark.isMarker '-' then
      blockItems node column bound t.mark (v :: done)
    else
      guard (t.mark.column ≤ column)
      return (.sequence (v :: done).reverse, behind)

/-- The value behind the colon of a block entry: on its line without a block
collection in it, or on deeper lines. A sequence may stand at the column of the
key. -/
def blockValue (node inline : Int → Mark → Reading) (column : Nat) (m : Mark) : Reading :=
  let s := separate m
  let p := skipProperties s.mark.rest.length s
  if p.mark.isEnd then some (.null, m)
  else if !p.newLine then inline column p.mark
  else if column < p.mark.column then node column p.mark
  else if p.mark.column == column && p.mark.isMarker '-' then node (column - 1 : Int) p.mark
  else some (.null, m)

/-- The entries of a block mapping at a column. -/
def blockEntries (value : Nat → Mark → Reading) (column : Nat) :
    Nat → Mark → List (String × Yaml) → Reading
  | 0, _, _ => none
  | bound + 1, m, done => do
    let (k, after) ← blockKey? m
    let (v, behind) ← value column after
    let entries := insert done k v
    let t := separate behind
    if t.mark.isEnd then return (.mapping entries, behind)
    guard t.newLine
    if t.mark.column == column && !(t.mark.isMarker '-') then
      blockEntries value column bound t.mark entries
    else
      guard (t.mark.column < column || t.mark.isMarker '-')
      return (.mapping entries, behind)

/-- A scalar, or a flow collection, of a block deeper than `indent`. -/
def leaf (indent : Int) (m : Mark) : Reading := do
  match m.head? with
  | some '[' | some '\x7b' => flowNode (m.rest.length + 1) m
  | some '|' | some '>' =>
    let (text, after) ← blockScalar indent m
    return (textValue text, after)
  | _ =>
    let (text, after) ←
      if isQuote m then quoted m
      else if m.head? == some '*' || startsPlain false m.rest then plain false indent m
      else none
    guard !(after.skipSpaces.isMarker ':')
    return (textValue text, after)

/-- A node deeper than `indent`, with at most `depth` collections in it. -/
def blockNode : Nat → Int → Mark → Reading
  | 0, _, _ => none
  | depth + 1, indent, m =>
    let s := skipProperties m.rest.length ⟨m, false⟩
    let n := s.mark
    if n.isEnd || (s.newLine && n.column ≤ indent) then some (.null, m)
    else if n.isMarker '-' then
      blockItems (blockNode depth) n.column (n.rest.length + 1) n []
    else if (blockKey? n).isSome then
      blockEntries (blockValue (blockNode depth) leaf) n.column (n.rest.length + 1) n []
    else leaf indent n

/-! ## Documents -/

/-- A whole document. -/
def document (cs : List Char) : Option Yaml :=
  let s := separate ⟨cs, 0⟩
  if s.mark.isEnd then some .null
  else match blockNode (cs.length + 1) (-1) s.mark with
    | some (v, after) => if (separate after).mark.isEnd then some v else none
    | none => none

def isDocumentMark (l : List Char) : Bool :=
  (l.take 3 == "---".toList || l.take 3 == "...".toList) && atBreak (l.drop 3)

/-- The lines of each document; the first mark opens a second one. -/
def splitDocuments : List (List Char) → List (List (List Char))
  | [] => [[]]
  | l :: ls =>
    match splitDocuments ls with
    | d :: ds =>
      if isDocumentMark l then [] :: (l.drop 3 :: d) :: ds else (l :: d) :: ds
    | [] => [[l]]

/-- Line ends of two characters are line feeds. -/
def joinLineEnds : List Char → List Char
  | '\r' :: '\n' :: cs => '\n' :: joinLineEnds cs
  | c :: cs => c :: joinLineEnds cs
  | [] => []

/-- The value of a text: that of its document, or a sequence when marks divide it. -/
def read (text : List Char) : Option Yaml :=
  match splitDocuments (splitLines (joinLineEnds text)) with
  | [_] => document (joinLineEnds text)
  | ds =>
    let texts := ds.map fun ls =>
      literalText (ls.filter fun l => l.head? != some '%')
    (texts.mapM document).map .sequence

end SceneSync.Yaml
