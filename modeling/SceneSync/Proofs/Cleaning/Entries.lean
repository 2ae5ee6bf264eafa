import Mathlib
import SceneSync.Cleaning
import SceneSync.Proofs.FileTree.Removal

/-!
# Entries of a manifest

An entry names something below the directory, or it is refused. The entries are taken
one after the other: what an earlier one has taken away with it, a later one does not
find, while a dry run finds everything still there.
-/

namespace SceneSync.Cleaning

open FileTree

variable {t t' : FileTree} {w w' : World} {directory root : Path} {l : Location} {dryRun : Bool}
  {e : String} {entries : List String}

/-! ## What a manifest lists -/

/-- The entries of the manifest of a directory, if they can be read. -/
def readEntries (t : FileTree) (directory : Path) : Except Failure (List String) :=
  if t.isFile (directory.child manifestName) then
    (Work.textOf (t.read (directory.child manifestName))).map manifestEntries
  else .ok []

/-- The entries of a manifest are read, and nothing else happens. -/
theorem execute_listed (directory : Path) (w : World) :
    execute (listed directory) w = (readEntries w.tree directory, w) := by
  rw [listed, execute_bind, Work.execute_tree, readEntries]
  cases hfile : w.tree.isFile (directory.child manifestName) with
  | false => simp [hfile]
  | true =>
    simp only [hfile, Bool.not_true, Bool.false_eq_true, ↓reduceIte]
    rw [execute_bind, Work.execute_readText]
    cases Work.textOf (w.tree.read (directory.child manifestName)) <;> rfl

/-- The entries that the manifest of a directory has. -/
def entriesOf (t : FileTree) (directory : Path) : List String :=
  match readEntries t directory with
  | .ok entries => entries
  | .error _ => []

theorem entryPath_normal (hroot : root.Normal) (e : String) : (entryPath root e).Normal :=
  Path.absolute_normal hroot (Path.wellSpelled_ofString _)

/-- An entry that is not refused names something below the root. -/
theorem exists_extend_of_accepted (hroot : root.Normal)
    (h : root.isBelow (entryPath root e) = true) :
    ∃ ns, ns ≠ [] ∧ ".." ∉ ns ∧ entryPath root e = root.extend ns := by
  obtain ⟨ns, hne, hpath⟩ := Path.exists_extend_of_isBelow h
  refine ⟨ns, hne, fun hup => ?_, hpath⟩
  have hvalid := (entryPath_normal hroot e).names ".." (by rw [hpath]; simp [hup])
  exact hvalid.notUp rfl

theorem execute_removeListed (directory : Path) (dryRun : Bool) (w : World) :
    execute (removeListed directory dryRun) w =
      if w.tree.isFile (directory.child manifestName) then execute (do
        let c ← cleanEntries dryRun (Path.absolute w.tree.current directory) (← listed directory)
        if !dryRun then Work.change (FileTree.remove (directory.child manifestName))
        return ⟨c.removed ++ [directory.child manifestName], c.refused⟩) w
      else (.ok ⟨[], []⟩, w) := by
  rw [removeListed, execute_bind, Work.execute_tree]
  simp only
  cases w.tree.isFile (directory.child manifestName) with
  | false => rfl
  | true =>
    simp only [Bool.not_true, Bool.false_eq_true, ↓reduceIte]
    rw [execute_bind, Work.execute_absolute]

/-- The entries of a manifest that could be read. -/
theorem execute_listed_ok {entries : List String}
    (h : execute (listed directory) w = (.ok entries, w')) :
    entries = entriesOf w.tree directory ∧ w' = w := by
  rw [execute_listed, Prod.mk.injEq] at h
  rw [entriesOf, h.1]
  exact ⟨rfl, h.2.symm⟩

/-! ## Refusals -/

/-- The refused entries are those that name nothing below the root. -/
theorem cleanEntries_refused {c : Cleaned}
    (h : execute (cleanEntries dryRun root entries) w = (.ok c, w')) :
    c.refused = entries.filter fun e => !root.isBelow (entryPath root e) := by
  induction entries generalizing w w' c with
  | nil =>
    rw [cleanEntries, execute_pure] at h
    rw [← Except.ok.inj (Prod.mk.inj h).1]
    rfl
  | cons e es ih =>
    rw [cleanEntries] at h
    split at h
    · rename_i hbelow
      obtain ⟨there, w₁, -, h⟩ := execute_bind_eq_ok.mp h
      obtain ⟨c', w₂, hrest, h⟩ := execute_bind_eq_ok.mp h
      rw [execute_pure] at h
      rw [← Except.ok.inj (Prod.mk.inj h).1, ih hrest, List.filter_cons_of_neg (by simp [hbelow])]
    · rename_i hbelow
      obtain ⟨-, w₁, -, h⟩ := execute_bind_eq_ok.mp h
      obtain ⟨c', w₂, hrest, h⟩ := execute_bind_eq_ok.mp h
      rw [execute_pure] at h
      rw [← Except.ok.inj (Prod.mk.inj h).1, List.filter_cons_of_pos (by simp [hbelow])]
      exact congrArg (e :: ·) (ih hrest)

/-! ## Entries in turn -/

/-- Without links to remove an entry is to erase its location. -/
theorem execute_removeEntry (dryRun : Bool) (ht : w.tree.Sound) {p : Path} (hp : p.Normal) :
    execute (removeEntry dryRun p) w = (.ok (w.tree.get? p.names).isSome,
      if dryRun then w else { w with tree := w.tree.erase p.names }) := by
  have hthere := isThere_iff ht hp
  have hdirectory := isDirectory_iff ht hp
  rw [removeEntry, execute_bind, Work.execute_tree]
  simp only [isLink_eq_false ht p, Bool.or_false, Bool.not_false, Bool.and_true]
  cases hg : w.tree.get? p.names with
  | none =>
    rw [hg] at hthere
    have hgone : (!w.tree.isThere p) = true := by simpa using hthere
    rw [if_pos hgone, ht.erase_of_none hg]
    cases dryRun <;> rfl
  | some entry =>
    rw [hg] at hthere hdirectory
    have hfound : w.tree.isThere p = true := hthere.mpr rfl
    rw [if_neg (by simp [hfound])]
    cases dryRun with
    | true => rfl
    | false =>
      by_cases hentry : entry = .directory
      · subst hentry
        simp only [hdirectory.mpr rfl, Bool.not_false, ↓reduceIte]
        rw [execute_bind_ok (Work.execute_change (execute_removeAll ht hp hg))]
        rfl
      · have hother : w.tree.isDirectory p = false := by
          rw [← Bool.not_eq_true, hdirectory]
          simpa using hentry
        simp only [hother, Bool.not_false, Bool.false_eq_true, ↓reduceIte]
        rw [execute_bind_ok (Work.execute_change (execute_remove ht hp hg hentry))]
        rfl

/-- Whether an entry names something below the root that is there. -/
def takes (root : Path) (t : FileTree) (e : String) : Bool :=
  root.isBelow (entryPath root e) && (t.get? (entryPath root e).names).isSome

/-- What the entries take away when each is taken from what the earlier ones have left. -/
def takenInTurn (root : Path) : FileTree → List String → List Path
  | _, [] => []
  | t, e :: es =>
    if takes root t e then
      entryPath root e :: takenInTurn root (t.erase (entryPath root e).names) es
    else takenInTurn root t es

theorem takes_of_fewer (h : Fewer t t') (ht : takes root t' e = true) : takes root t e = true := by
  rw [takes, Bool.and_eq_true] at *
  refine ⟨ht.1, ?_⟩
  rcases h.entries (entryPath root e).names with hnone | heq
  · rw [hnone] at ht
    cases ht.2
  · rw [← heq]
    exact ht.2

theorem names_ne_nil_of_takes (h : takes root t e = true) : (entryPath root e).names ≠ [] := by
  rw [takes, Bool.and_eq_true] at h
  obtain ⟨ns, hne, hpath⟩ := Path.exists_extend_of_isBelow h.1
  simp [hpath, hne]

theorem takes_erase (hl : l ≠ []) :
    takes root (t.erase l) e = true ↔ takes root t e = true ∧ ¬ l <+: (entryPath root e).names := by
  rw [takes, takes, get?_erase t hl]
  split <;> simp_all

theorem takenInTurn_sublist (root : Path) (h : Fewer t t') (entries : List String) :
    (takenInTurn root t' entries).Sublist ((entries.filter (takes root t)).map (entryPath root)) := by
  induction entries generalizing t' with
  | nil => exact .slnil
  | cons e es ih =>
    rw [takenInTurn]
    by_cases hthere : takes root t' e = true
    · rw [if_pos hthere, List.filter_cons_of_pos (takes_of_fewer h hthere), List.map_cons]
      exact (ih (h.trans (fewer_erase _ _))).cons_cons _
    · rw [if_neg hthere]
      by_cases hlisted : takes root t e = true
      · rw [List.filter_cons_of_pos hlisted, List.map_cons]
        exact (ih h).cons _
      · rw [List.filter_cons_of_neg hlisted]
        exact ih h

/-- The entries take in turn what they would take at once as long as none has gone before,
and none lies in what an earlier one takes. -/
theorem takenInTurn_eq_iff (root : Path) (h : Fewer t t') (entries : List String) :
    takenInTurn root t' entries = (entries.filter (takes root t)).map (entryPath root) ↔
      (∀ e ∈ entries, takes root t e = true → takes root t' e = true) ∧
      (entries.filter (takes root t)).Pairwise fun e e' =>
        ¬ (entryPath root e).names <+: (entryPath root e').names := by
  induction entries generalizing t' with
  | nil => simp [takenInTurn]
  | cons e es ih =>
    rw [takenInTurn]
    by_cases hthere : takes root t' e = true
    · have hlisted := takes_of_fewer h hthere
      rw [if_pos hthere, List.filter_cons_of_pos hlisted, List.map_cons, List.cons_inj_right,
        ih (h.trans (fewer_erase _ _)), List.pairwise_cons]
      simp only [takes_erase (names_ne_nil_of_takes hthere), List.forall_mem_cons, List.mem_filter]
      constructor
      · rintro ⟨hall, hpairs⟩
        exact ⟨⟨fun _ => hthere, fun e' he' h' => (hall e' he' h').1⟩,
          fun e' he' => (hall e' he'.1 he'.2).2, hpairs⟩
      · rintro ⟨⟨-, hall⟩, hapart, hpairs⟩
        exact ⟨fun e' he' h' => ⟨hall e' he' h', hapart e' ⟨he', h'⟩⟩, hpairs⟩
    · rw [if_neg hthere]
      by_cases hlisted : takes root t e = true
      · rw [List.filter_cons_of_pos hlisted, List.map_cons]
        constructor
        · intro heq
          have hlen := (takenInTurn_sublist root h es).length_le
          rw [heq] at hlen
          simp at hlen
        · rintro ⟨hall, -⟩
          exact absurd (hall e (by simp) hlisted) hthere
      · rw [List.filter_cons_of_neg hlisted, ih h]
        simp [hlisted]

/-- A refused entry leaves a notice. -/
theorem execute_cleanEntries_refused (dryRun : Bool)
    (hbelow : ¬ root.isBelow (entryPath root e) = true) (es : List String) :
    ∃ notice, ∀ w, execute (cleanEntries dryRun root (e :: es)) w = execute (do
      let c ← cleanEntries dryRun root es
      return ⟨c.removed, e :: c.refused⟩) { w with notices := w.notices ++ [notice] } := by
  refine ⟨.log .warning logName
    ("Refusing to remove " ++ Text.literal e ++ ": outside of " ++ root.toString), fun w => ?_⟩
  rw [cleanEntries, if_neg hbelow, execute_bind, Work.execute_notify]

/-- A dry run finds every entry in the tree as it is. -/
theorem execute_cleanEntries_dry (ht : t.Sound) (hroot : root.Normal) (entries : List String) :
    ∃ c ns, c.removed = (entries.filter (takes root t)).map (entryPath root) ∧
      ∀ n, execute (cleanEntries true root entries) ⟨t, n⟩ = (.ok c, ⟨t, n ++ ns⟩) := by
  induction entries with
  | nil => exact ⟨⟨[], []⟩, [], rfl, fun n => by simp [cleanEntries]⟩
  | cons e es ih =>
    obtain ⟨c, ns, hc, hrest⟩ := ih
    by_cases hbelow : root.isBelow (entryPath root e) = true
    · have hentry (n : List Notice) := execute_removeEntry (w := ⟨t, n⟩) true ht
        (entryPath_normal hroot e)
      have htakes : takes root t e = (t.get? (entryPath root e).names).isSome := by
        rw [takes, hbelow, Bool.true_and]
      refine ⟨⟨if takes root t e then entryPath root e :: c.removed else c.removed, c.refused⟩, ns,
        ?_, fun n => ?_⟩
      · rw [List.filter_cons, hc]
        split <;> simp
      · rw [cleanEntries, if_pos hbelow, execute_bind_ok (hentry n), if_pos rfl,
          execute_bind_ok (hrest n), execute_pure, htakes]
    · have hskip : takes root t e = false := by simp [takes, hbelow]
      obtain ⟨notice, hnotice⟩ := execute_cleanEntries_refused true hbelow es
      refine ⟨⟨c.removed, e :: c.refused⟩, notice :: ns, ?_, fun n => ?_⟩
      · rw [List.filter_cons_of_neg (by simp [hskip]), hc]
      · rw [hnotice, execute_bind_ok (hrest _), execute_pure, List.append_assoc]
        rfl

/-- A real run takes them in turn. -/
theorem cleanEntries_removed (ht : w.tree.Sound) (hroot : root.Normal) {c : Cleaned}
    (h : execute (cleanEntries false root entries) w = (.ok c, w')) :
    c.removed = takenInTurn root w.tree entries := by
  induction entries generalizing w w' c with
  | nil =>
    rw [cleanEntries, execute_pure] at h
    rw [← Except.ok.inj (Prod.mk.inj h).1, takenInTurn]
  | cons e es ih =>
    rw [takenInTurn]
    by_cases hbelow : root.isBelow (entryPath root e) = true
    · have htakes : takes root w.tree e = (w.tree.get? (entryPath root e).names).isSome := by
        rw [takes, hbelow, Bool.true_and]
      rw [cleanEntries, if_pos hbelow,
        execute_bind_ok (execute_removeEntry false ht (entryPath_normal hroot e))] at h
      obtain ⟨c', w₁, hrest, h⟩ := execute_bind_eq_ok.mp h
      rw [execute_pure] at h
      rw [← Except.ok.inj (Prod.mk.inj h).1, htakes]
      have hrest' := ih (ht.erase _) hrest
      split
      · exact congrArg (entryPath root e :: ·) hrest'
      · rename_i hgone
        rw [hrest']
        simp only [Bool.false_eq_true, ↓reduceIte]
        rw [ht.erase_of_none (by simpa using hgone)]
    · obtain ⟨notice, hnotice⟩ := execute_cleanEntries_refused false hbelow es
      rw [hnotice] at h
      obtain ⟨c', w₁, hrest, h⟩ := execute_bind_eq_ok.mp h
      rw [execute_pure] at h
      have hskip : takes root w.tree e = false := by simp [takes, hbelow]
      rw [← Except.ok.inj (Prod.mk.inj h).1, if_neg (by simp [hskip])]
      exact ih (w := ⟨w.tree, w.notices ++ [notice]⟩) (c := c') ht hrest

end SceneSync.Cleaning
