/-!
# Blanks

Which characters count as blank when text is trimmed or squeezed: the ASCII
blanks and the four ASCII separators, the next-line and no-break characters and
the space separators of Unicode.
-/

namespace SceneSync.Text

def isBlank (c : Char) : Bool :=
  let n := c.toNat
  (9 ≤ n && n ≤ 13) || (28 ≤ n && n ≤ 32) || n == 0x85 || n == 0xA0 || n == 0x1680 ||
  (0x2000 ≤ n && n ≤ 0x200A) || n == 0x2028 || n == 0x2029 || n == 0x202F ||
  n == 0x205F || n == 0x3000

def trimStart (cs : List Char) : List Char := cs.dropWhile isBlank

def trimEnd (cs : List Char) : List Char := (cs.reverse.dropWhile isBlank).reverse

def trim (cs : List Char) : List Char := trimEnd (trimStart cs)

/-- Without its blanks. -/
def squeeze (cs : List Char) : List Char := cs.filter (fun c => !isBlank c)

end SceneSync.Text
