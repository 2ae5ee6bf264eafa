import Mathlib
import SceneSync.Proofs.FileTree.Change
import SceneSync.Proofs.FileTree.Way

/-!
# Growth

To write a file or to make a directory only adds to a tree, in trees with links too. What
a path has led to it still leads to, and every entry still stands in a directory.
-/

namespace SceneSync.FileTree

variable {t t' t'' : FileTree} {l m : Location} {n : String} {ns : List String} {p : Path}
  {e : Entry} {follow : Bool} {links : Nat}

/-! ## Where a way ends -/

/-- A directory, or a name in one. -/
def Place (t : FileTree) (l : Location) : Prop :=
  t.get? l = some .directory ∨
    ∃ k n, l = k ++ [n] ∧ t.get? k = some .directory ∧ Path.ValidName n

theorem Grounded.dropLast (ht : t.Grounded) (hl : t.get? l = some .directory) :
    t.get? l.dropLast = some .directory := by
  rcases List.eq_nil_or_concat l with rfl | ⟨k, n, rfl⟩
  · rfl
  · rw [List.concat_eq_append] at *
    rw [List.dropLast_concat]
    exact ht.parents k n (by rw [hl]; rfl)

theorem Way.place (ht : t.Grounded) (h : Way t follow links l ns m) (hl : t.Place l)
    (hns : ∀ n ∈ ns, n = ".." ∨ Path.ValidName n) : t.Place m := by
  induction h with
  | done => exact hl
  | up hdir _ ih =>
    exact ih (.inl (ht.dropLast hdir)) fun k hk => hns k (by simp [hk])
  | @down links l m n ns hn hdir _ _ _ ih =>
    have hvalid := (hns n (by simp)).resolve_left hn
    exact ih (.inr ⟨l, n, rfl, hdir, hvalid⟩) fun k hk => hns k (by simp [hk])
  | @link links l n target hn hdir =>
    exact .inr ⟨l, n, rfl, hdir, (hns n (by simp)).resolve_left hn⟩
  | @through links l m n target ns hn hdir _ _ _ ih =>
    apply ih
    · split
      · exact .inl rfl
      · exact .inl hdir
    · intro k hk
      rcases List.mem_append.mp hk with hk | hk
      · exact Path.wellSpelled_ofString target k hk
      · exact hns k (by simp [hk])

/-- A way that follows every link does not end at one. -/
theorem Way.not_link (ht : t.Grounded) (h : Way t true links l ns m)
    (hl : ∀ target, t.get? l ≠ some (.link target)) (target : String) :
    t.get? m ≠ some (.link target) := by
  induction h with
  | done => exact hl target
  | up hdir _ ih =>
    apply ih
    intro target
    rw [ht.dropLast hdir]
    simp
  | down _ _ hnot _ _ ih => exact ih hnot
  | link _ _ _ hfollow => cases hfollow
  | through _ hdir _ _ _ ih =>
    apply ih
    intro target
    split
    · simp
    · rw [hdir]
      simp

/-! ## Additions -/

/-- A tree that has grown out of another. -/
structure Grown (t t' : FileTree) : Prop where
  within : Within t t'
  grounded : t'.Grounded

theorem Grown.refl (ht : t.Grounded) : Grown t t := ⟨.refl t, ht⟩

theorem Grown.trans (h : Grown t t') (h' : Grown t' t'') : Grown t t'' :=
  ⟨h.within.trans h'.within, h'.grounded⟩

/-- An entry is put at a name in a directory, in the place of none but its like. -/
theorem Grown.put (h : Grown t t') (hl : t'.get? l = some .directory) (hn : Path.ValidName n)
    (hold : ∀ e', t'.get? (l ++ [n]) = some e' → e'.Alike e) : Grown t (t'.put (l ++ [n]) e) := by
  have hget := get?_put t' (l := l ++ [n]) (by simp) e
  refine ⟨h.within.trans ⟨by simp, fun m e' he' => ?_⟩, h.grounded.put hl hn ?_⟩
  · rw [hget]
    split
    · rename_i hm
      subst hm
      exact ⟨e, rfl, hold e' he'⟩
    · exact ⟨e', he', .refl e'⟩
  · by_cases hdir : t'.get? (l ++ [n]) = some .directory
    · exact .inr (Entry.Alike.directory_iff.mp (hold _ hdir))
    · exact .inl hdir

theorem Grown.put_of_place (h : Grown t t') (hl : t'.Place l) (hnot : t'.get? l ≠ some .directory)
    (hold : ∀ e', t'.get? l = some e' → e'.Alike e) : Grown t (t'.put l e) := by
  obtain ⟨k, n, rfl, hk, hn⟩ := hl.resolve_left hnot
  exact h.put hk hn hold

/-- A path that is absolute and was read from a text. -/
structure Placed (p : Path) : Prop where
  absolute : p.isAbsolute
  names : p.WellSpelled

theorem placed_of_normal (h : p.Normal) : Placed p := ⟨h.absolute, fun n hn => .inr (h.names n hn)⟩

theorem place_of_resolve (ht : t.Grounded) (hp : Placed p) (h : t.resolve follow p = .ok l) :
    t.Place l := by
  rw [resolve, hp.absolute, if_pos rfl, resolveFrom_eq_ok_iff] at h
  exact h.place ht (.inl rfl) hp.names

theorem not_link_of_resolve (ht : t.Grounded) (hp : Placed p) (h : t.resolve true p = .ok l)
    (target : String) : t.get? l ≠ some (.link target) := by
  rw [resolve, hp.absolute, if_pos rfl, resolveFrom_eq_ok_iff] at h
  exact h.not_link ht (by simp) target

theorem grown_write (hp : Placed p) (b : List UInt8) : Preserves (Grown t) (write p b) := by
  intro t' h
  rw [write, execute_bind, execute_locate]
  cases hr : t'.resolve true p with
  | error f => exact h
  | ok l =>
    simp only [execute_bind, execute_get]
    split
    · exact h
    · rename_i hnot
      apply h.put_of_place (place_of_resolve h.grounded hp hr) (by simpa using hnot)
      intro e' he'
      cases e' with
      | file => trivial
      | directory => exact absurd he' hnot
      | link target => exact absurd he' (not_link_of_resolve h.grounded hp hr target)

theorem grown_makeDirectory (hp : Placed p) : Preserves (Grown t) (makeDirectory p) := by
  intro t' h
  rw [makeDirectory, execute_bind, execute_locate]
  cases hr : t'.resolve false p with
  | error f => exact h
  | ok l =>
    simp only [execute_bind, execute_get]
    split
    · exact h
    · rename_i hnone
      apply h.put_of_place (place_of_resolve h.grounded hp hr) (by simp [hnone])
      simp [hnone]

theorem grown_ensureDirectory (hp : Placed p) : Preserves (Grown t) (ensureDirectory p) := by
  refine .tryCatch (grown_makeDirectory hp) fun e => .bind .get fun t' => ?_
  split
  · exact .throw _
  · exact .pure _

theorem grown_ensureDirectories (hp : Placed p) : Preserves (Grown t) (ensureDirectories p) := by
  have hplaced {ns : List String} (hns : ∀ n ∈ ns, n = ".." ∨ Path.ValidName n) :
      Placed ⟨p.anchor, ns.reverse⟩ :=
    ⟨hp.absolute, fun n hn => hns n (List.mem_reverse.mp hn)⟩
  have haux (ns : List String) (hns : ∀ n ∈ ns, n = ".." ∨ Path.ValidName n) :
      Preserves (Grown t) (ensureDirectoriesAux p.anchor ns) := by
    induction ns with
    | nil => exact grown_ensureDirectory (hplaced hns)
    | cons n ns ih =>
      have hrest := ih fun k hk => hns k (by simp [hk])
      refine .tryCatch (grown_ensureDirectory (hplaced hns)) fun e => ?_
      split
      · exact .bind (.throw _) fun _ => .bind hrest fun _ => grown_ensureDirectory (hplaced hns)
      · exact .bind hrest fun _ => grown_ensureDirectory (hplaced hns)
  exact haux p.names.reverse fun n hn => hp.names n (List.mem_reverse.mp hn)

/-! ## What stays to be seen -/

theorem Within.find (h : Within t t') (hf : t.find follow p = .ok e) :
    ∃ e', t'.find follow p = .ok e' ∧ e.Alike e' := by
  obtain ⟨l, hr, hl⟩ := find_eq_ok_iff.mp hf
  obtain ⟨e', he', halike⟩ := h.entries l e hl
  exact ⟨e', find_eq_ok_iff.mpr ⟨l, h.resolve hr (by rw [hl]; rfl), he'⟩, halike⟩

theorem Within.isDirectory (h : Within t t') (hdir : t.isDirectory p = true) :
    t'.isDirectory p = true := by
  rw [isDirectory_iff_find] at *
  obtain ⟨e, he, halike⟩ := h.find hdir
  rwa [Entry.Alike.directory_iff.mp halike] at he

theorem isFile_iff_find : t.isFile p = true ↔ ∃ b, t.find true p = .ok (.file b) := by
  rw [isFile]
  split <;> simp_all

theorem Within.isFile (h : Within t t') (hfile : t.isFile p = true) : t'.isFile p = true := by
  obtain ⟨b, hb⟩ := isFile_iff_find.mp hfile
  obtain ⟨e, he, halike⟩ := h.find hb
  cases e with
  | file b' => exact isFile_iff_find.mpr ⟨b', he⟩
  | directory | link => exact halike.elim

/-- What is there is a file or a directory, for the links to it are followed. -/
theorem isFile_of_isThere (ht : t.Grounded) (hp : Placed p) (hthere : t.isThere p = true)
    (hdir : t.isDirectory p = false) : t.isFile p = true := by
  rw [isThere] at hthere
  cases hf : t.find true p with
  | error f => simp [hf, Except.isOk, Except.toBool] at hthere
  | ok e =>
    obtain ⟨l, hr, hl⟩ := find_eq_ok_iff.mp hf
    cases e with
    | file b => exact isFile_iff_find.mpr ⟨b, hf⟩
    | directory => simp [isDirectory_iff_find.mpr hf] at hdir
    | link target => exact absurd hl (not_link_of_resolve ht hp hr target)

/-- A listing of the directory at a path shows a name. -/
def Shows (t : FileTree) (p : Path) (n : String) : Prop := ∃ ns, t.list p = .ok ns ∧ n ∈ ns

theorem shows_iff : t.Shows p n ↔
    ∃ l, t.resolve true p = .ok l ∧ t.get? l = some .directory ∧ (t.get? (l ++ [n])).isSome := by
  rw [Shows, FileTree.list]
  cases hr : t.resolve true p with
  | error f => simp
  | ok l =>
    cases hg : t.get? l with
    | none => simp [hg]
    | some e => cases e <;> simp [hg, mem_namesIn]

theorem Within.shows (h : Within t t') (hn : t.Shows p n) : t'.Shows p n := by
  obtain ⟨l, hr, hl, hsome⟩ := shows_iff.mp hn
  exact shows_iff.mpr ⟨l, h.resolve hr (by rw [hl]; rfl), h.directory hl, h.isSome hsome⟩

theorem Shows.validName (ht : t.Grounded) (hn : t.Shows p n) : Path.ValidName n := by
  obtain ⟨l, -, -, hsome⟩ := shows_iff.mp hn
  exact ht.names _ hsome n (by simp)

/-- A directory in another, if it is no link, is where its name says. -/
theorem Shows.resolve_child (hn : t.Shows p n) (ht : t.Grounded) (hr : t.resolve true p = .ok l)
    (hdir : t.isDirectory (p.child n) = true) (hlink : t.isLink (p.child n) = false) :
    (∀ follow, t.resolve follow (p.child n) = .ok (l ++ [n])) ∧
      t.get? (l ++ [n]) = some .directory := by
  have hup : n ≠ ".." := (hn.validName ht).notUp
  obtain ⟨l', hr', hl, -⟩ := shows_iff.mp hn
  obtain rfl := Except.ok.inj (hr.symm.trans hr')
  obtain ⟨k, hk⟩ := exists_resolve_extend hr hl
  have hchild (follow : Bool) : t.resolve follow (p.child n) = t.resolveFrom follow k l [n] :=
    hk follow [n] (by simp)
  have hnot (target : String) : t.get? (l ++ [n]) ≠ some (.link target) := by
    intro hg
    have hfind : t.find false (p.child n) = .ok (.link target) :=
      find_eq_ok_iff.mpr ⟨_, (hchild false).trans (resolveFrom_of_way (.link hup hl hg rfl)), hg⟩
    simp [isLink, hfind] at hlink
  have hresolve (follow : Bool) : t.resolve follow (p.child n) = .ok (l ++ [n]) := by
    rw [hchild, resolveFrom_down hup hl hnot (.inr rfl), resolveFrom]
  obtain ⟨m, hm, hg⟩ := find_eq_ok_iff.mp (isDirectory_iff_find.mp hdir)
  obtain rfl := Except.ok.inj ((hresolve true).symm.trans hm)
  exact ⟨hresolve, hg⟩

theorem Shows.isLink_within (hn : t.Shows p n) (ht : t.Grounded) (h : Within t t')
    (hdir : t.isDirectory (p.child n) = true) (hlink : t.isLink (p.child n) = false) :
    t'.isLink (p.child n) = false := by
  obtain ⟨l, hr, -⟩ := shows_iff.mp hn
  obtain ⟨hresolve, hg⟩ := hn.resolve_child ht hr hdir hlink
  have hfind : t'.find false (p.child n) = .ok .directory :=
    find_eq_ok_iff.mpr ⟨_, h.resolve (hresolve false) (by rw [hg]; rfl), h.directory hg⟩
  simp [isLink, hfind]

end SceneSync.FileTree
