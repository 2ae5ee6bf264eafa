import Mathlib
import SceneSync.Proofs.FileTree.Change
import SceneSync.Proofs.FileTree.Way

/-!
# Removals

To remove a path takes away what stands where it leads and nothing else, in trees with
links too. What is left leads nowhere that it did not lead before.
-/

namespace SceneSync.FileTree

variable {t t' t'' : FileTree} {l m : Location} {p : Path}

/-- Entries have gone from a tree, and nothing else has happened. -/
structure Fewer (t t' : FileTree) : Prop where
  current : t'.current = t.current
  entries : ∀ l, t'.get? l = none ∨ t'.get? l = t.get? l

theorem Fewer.refl (t : FileTree) : Fewer t t := ⟨rfl, fun _ => .inr rfl⟩

theorem Fewer.trans (h : Fewer t t') (h' : Fewer t' t'') : Fewer t t'' := by
  refine ⟨h'.current.trans h.current, fun l => ?_⟩
  rcases h'.entries l with hnone | heq
  · exact .inl hnone
  · rw [heq]
    exact h.entries l

theorem Fewer.within (h : Fewer t t') : Within t' t := by
  refine ⟨h.current.symm, fun l e he => ⟨e, ?_, .refl e⟩⟩
  rcases h.entries l with hnone | heq
  · cases hnone.symm.trans he
  · exact heq.symm.trans he

/-- What is found has been there before. -/
theorem Fewer.find (h : Fewer t t') {follow : Bool} {e : Entry} (hf : t'.find follow p = .ok e) :
    t.find follow p = .ok e := by
  rw [find_eq_ok_iff] at hf ⊢
  obtain ⟨l, hr, hl⟩ := hf
  have hsame := (h.entries l).resolve_left (by simp [hl])
  exact ⟨l, h.within.resolve hr (by rw [hl]; rfl), hsame ▸ hl⟩

theorem Fewer.isDirectory (h : Fewer t t') (hdir : t'.isDirectory p = true) :
    t.isDirectory p = true := by
  rw [isDirectory_iff_find] at hdir ⊢
  exact h.find hdir

theorem Fewer.isFile (h : Fewer t t') (hfile : t'.isFile p = true) :
    t.isFile p = true ∧ t'.read p = t.read p := by
  rw [FileTree.isFile] at hfile
  split at hfile
  · rename_i b hf
    simp [FileTree.isFile, read, hf, h.find hf]
  · cases hfile

/-- What is left of a tree without links is directories and files. -/
theorem Fewer.exists_file (h : Fewer t t') (ht : t.Sound) {e : Entry} (hl : t'.get? l = some e)
    (he : e ≠ .directory) : ∃ b, e = .file b := by
  have hsame := (h.entries l).resolve_left (by simp [hl])
  rw [hl] at hsame
  cases e with
  | file b => exact ⟨b, rfl⟩
  | directory => exact absurd rfl he
  | link target => exact absurd hsame.symm (ht.noLinks l target)

theorem fewer_erase (t : FileTree) (l : Location) : Fewer t (t.erase l) := by
  refine ⟨rfl, fun m => ?_⟩
  rw [get?_erase_any]
  split
  · exact .inl rfl
  · exact .inr rfl

theorem fewer_clear (t : FileTree) (l : Location) : Fewer t (t.clear l) := by
  refine ⟨rfl, fun m => ?_⟩
  rw [get?_clear]
  split
  · exact .inl rfl
  · exact .inr rfl

/-- Only what stands at the location or below it goes. -/
theorem prefix_of_erased (h : (t.erase l).get? m ≠ t.get? m) : l <+: m := by
  by_contra hnot
  refine h ?_
  rw [get?_erase_any, if_neg fun hp => hnot hp.1]

theorem prefix_of_cleared (h : (t.clear l).get? m ≠ t.get? m) : l <+: m := by
  by_contra hnot
  refine h ?_
  rw [get?_clear, if_neg fun hp => hnot hp.1]

/-! ## One after the other -/

/-- What is kept when a file or a link that the path leads to goes. -/
theorem preserves_remove_of {P : FileTree → Prop}
    (h : ∀ t l e, P t → t.resolve false p = .ok l → t.get? l = some e → e ≠ .directory →
      P (t.erase l)) : Preserves P (remove p) := by
  intro t ht
  rw [remove, execute_bind, execute_locate]
  cases hr : t.resolve false p with
  | error f => exact ht
  | ok l =>
    simp only [execute_bind, execute_get]
    split
    · exact ht
    · rename_i e he hl
      exact h t l e ht hr hl he
    · exact ht

/-- What is kept when a directory that the path leads to goes, with nothing in it. -/
theorem preserves_removeDirectory_of {P : FileTree → Prop}
    (h : ∀ t l, P t → t.resolve false p = .ok l → t.get? l = some .directory →
      (∀ n, t.get? (l ++ [n]) = none) → P (t.erase l)) : Preserves P (removeDirectory p) := by
  intro t ht
  rw [removeDirectory, execute_bind, execute_locate]
  cases hr : t.resolve false p with
  | error f => exact ht
  | ok l =>
    simp only [execute_bind, execute_get]
    split
    · rename_i hdir
      rw [execute_bind, execute_get]
      simp only
      split
      · rename_i hempty
        rw [List.isEmpty_iff, List.eq_nil_iff_forall_not_mem] at hempty
        exact h t l ht hr hdir fun n => by simpa [mem_namesIn] using hempty n
      · exact ht
    · exact ht
    · exact ht

/-- What every removal of a location keeps is kept by the removal of any path. -/
theorem preserves_remove_of_erase {P : FileTree → Prop} (h : ∀ t l, P t → P (t.erase l))
    (p : Path) : Preserves P (remove p) :=
  preserves_remove_of fun t l _ ht _ _ _ => h t l ht

theorem preserves_removeDirectory_of_erase {P : FileTree → Prop} (h : ∀ t l, P t → P (t.erase l))
    (p : Path) : Preserves P (removeDirectory p) :=
  preserves_removeDirectory_of fun t l ht _ _ _ => h t l ht

/-! ## Confined removals -/

/-- Entries have gone, but only where it is allowed. -/
structure Confined (allowed : Location → Prop) (t t' : FileTree) : Prop where
  fewer : Fewer t t'
  allowed : ∀ l, t'.get? l ≠ t.get? l → allowed l

variable {allowed : Location → Prop}

theorem Confined.refl (t : FileTree) : Confined allowed t t := ⟨.refl t, fun _ h => absurd rfl h⟩

theorem Confined.mono {wider : Location → Prop} (h : Confined allowed t t')
    (hl : ∀ l, allowed l → wider l) : Confined wider t t' :=
  ⟨h.fewer, fun l hchanged => hl l (h.allowed l hchanged)⟩

theorem Confined.kept (h : Confined allowed t t') (hl : ¬ allowed l) : t'.get? l = t.get? l := by
  by_contra hchanged
  exact hl (h.allowed l hchanged)

theorem Confined.erase (h : Confined allowed t t') (hl : ∀ m, l <+: m → allowed m) :
    Confined allowed t (t'.erase l) := by
  refine ⟨h.fewer.trans (fewer_erase t' l), fun m hm => ?_⟩
  by_cases hsame : (t'.erase l).get? m = t'.get? m
  · exact h.allowed m (hsame ▸ hm)
  · exact hl m (prefix_of_erased hsame)

theorem Confined.clear (h : Confined allowed t t') (hl : ∀ m, l <+: m → allowed m) :
    Confined allowed t (t'.clear l) := by
  refine ⟨h.fewer.trans (fewer_clear t' l), fun m hm => ?_⟩
  by_cases hsame : (t'.clear l).get? m = t'.get? m
  · exact h.allowed m (hsame ▸ hm)
  · exact hl m (prefix_of_cleared hsame)

/-- Where a path may be removed: what it leads to may go, with all that is below. -/
def MayGo (allowed : Location → Prop) (t : FileTree) (p : Path) : Prop :=
  ∀ l, t.resolve false p = .ok l → ∀ m, l <+: m → allowed m

theorem MayGo.of_fewer (h : MayGo allowed t p) (hfewer : Fewer t t')
    (hr : t'.resolve false p = .ok l) (hl : (t'.get? l).isSome) : ∀ m, l <+: m → allowed m :=
  h l (hfewer.within.resolve hr hl)

theorem preserves_remove (h : MayGo allowed t p) : Preserves (Confined allowed t) (remove p) :=
  preserves_remove_of fun _ _ _ ht' hr hl _ =>
    ht'.erase (h.of_fewer ht'.fewer hr (by rw [hl]; rfl))

theorem preserves_removeDirectory (h : MayGo allowed t p) :
    Preserves (Confined allowed t) (removeDirectory p) :=
  preserves_removeDirectory_of fun _ _ ht' hr hl _ =>
    ht'.erase (h.of_fewer ht'.fewer hr (by rw [hl]; rfl))

theorem preserves_removeAll (h : MayGo allowed t p) :
    Preserves (Confined allowed t) (removeAll p) := by
  intro t' ht'
  rw [removeAll, execute_bind, execute_locate]
  cases hr : t'.resolve false p with
  | error f => exact ht'
  | ok l =>
    simp only [execute_bind, execute_get]
    split
    · rename_i hdir
      have hgo := h.of_fewer ht'.fewer hr (by rw [hdir]; rfl)
      rw [execute_bind, execute_modify]
      exact preserves_removeDirectory h _ (ht'.clear hgo)
    · exact ht'
    · exact ht'

end SceneSync.FileTree
