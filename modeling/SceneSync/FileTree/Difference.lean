import SceneSync.FileTree.Basic

/-!
# Differences of file trees

What has to happen to a file tree so that it becomes another one: first things
are lost, each directory after what is in it, and then things are gained, each
directory before what is in it.
-/

namespace SceneSync

/-- Whether an entry can take the place of another one without a removal before it. -/
def Entry.replaces : Entry → Entry → Bool
  | file _, file _ => true
  | e, f => e == f

namespace FileTree

/-- The locations in `t` of what `u` does not have. -/
def lost (t u : FileTree) : List Location :=
  let gone := t.entries.filter fun x => !(u.entries.lookup x.1).any (·.replaces x.2)
  (gone.map (·.1)).mergeSort fun l m => m.length ≤ l.length

/-- The entries of `u` that `t` does not have. -/
def gained (t u : FileTree) : List (Location × Entry) :=
  let fresh := u.entries.filter fun x => t.entries.lookup x.1 != some x.2
  fresh.mergeSort fun x y => x.1.length ≤ y.1.length

end FileTree

end SceneSync
