/-!
# Lines

A text file may end its lines by a line feed, a carriage return or both; as text
every line ends by a line feed.
-/

namespace SceneSync.Text

def unifyLineEnds : List Char → List Char
  | '\r' :: '\n' :: cs => '\n' :: unifyLineEnds cs
  | '\r' :: cs => '\n' :: unifyLineEnds cs
  | c :: cs => c :: unifyLineEnds cs
  | [] => []

theorem not_mem_unifyLineEnds (cs : List Char) : '\r' ∉ unifyLineEnds cs := by
  fun_induction unifyLineEnds cs with
  | case1 => simp_all
  | case2 => simp_all
  | case3 c cs h1 h2 ih =>
    simp only [List.mem_cons, not_or]
    exact ⟨fun e => h2 e.symm, ih⟩
  | case4 => simp

/-- The pieces between line feeds, one more than there are line feeds. -/
def lines : List Char → List (List Char)
  | [] => [[]]
  | c :: cs =>
    if c == '\n' then [] :: lines cs
    else match lines cs with
      | l :: ls => (c :: l) :: ls
      | [] => [[c]]

theorem lines_ne_nil (cs : List Char) : lines cs ≠ [] := by
  cases cs with
  | nil => simp [lines]
  | cons c cs => simp only [lines]; split <;> (try split) <;> simp

end SceneSync.Text
