import Mathlib
import SceneSync.Proofs.FileTree.Sound

/-!
# Walks

How the names of any path lead through a sound tree, those that lead up again
included. A walk ends where the absolute form of the path says, it leads to the
neighbours of its end as well, and it stays one as long as directories stay.
-/

namespace SceneSync.FileTree

variable {t t' : FileTree} {l m : Location} {ns : List String}

/-- Names that lead from one location to another. -/
inductive Walk (t : FileTree) : Location → List String → Location → Prop
  | done (l : Location) : Walk t l [] l
  | up {l m : Location} {ns : List String} : t.get? l = some .directory →
      Walk t l.dropLast ns m → Walk t l (".." :: ns) m
  | down {l m : Location} {n : String} {ns : List String} : n ≠ ".." →
      t.get? l = some .directory → Walk t (l ++ [n]) ns m → Walk t l (n :: ns) m

theorem Walk.directory {n : String} (h : Walk t l (n :: ns) m) : t.get? l = some .directory := by
  cases h with
  | up hl _ => exact hl
  | down _ hl _ => exact hl

theorem resolveFrom_up (follow : Bool) (links : Nat) (l : Location) (ns : List String) :
    t.resolveFrom follow links l (".." :: ns) =
      match t.get? l with
      | none => .error .missing
      | some .directory => t.resolveFrom follow links l.dropLast ns
      | some _ => .error .notDirectory := by
  rw [resolveFrom]
  cases t.get? l with
  | none => rfl
  | some e => cases e <;> simp

theorem resolveFrom_ok_iff (ht : t.Sound) (follow : Bool) (links : Nat) :
    t.resolveFrom follow links l ns = .ok m ↔ Walk t l ns m := by
  induction ns generalizing l with
  | nil =>
    rw [resolveFrom]
    constructor
    · rintro ⟨⟩
      exact .done _
    · rintro ⟨⟩
      rfl
  | cons n ns ih =>
    by_cases hn : n = ".."
    · subst hn
      rw [resolveFrom_up]
      constructor
      · intro h
        split at h
        · cases h
        · exact .up ‹_› (ih.mp h)
        · cases h
      · intro h
        cases h with
        | up hl hrest => simp [hl, ih.mpr hrest]
        | down hn _ _ => exact absurd rfl hn
    · rw [resolveFrom_cons ht follow links l hn]
      constructor
      · intro h
        split at h
        · cases h
        · split at h
          · exact .down hn ‹_› (ih.mp h)
          · cases h
        · cases h
      · intro h
        cases h with
        | up => exact absurd rfl hn
        | down _ hl hrest =>
          have hnext : ((t.get? (l ++ [n])).isSome || ns.isEmpty) = true := by
            cases ns with
            | nil => simp
            | cons => simp [hrest.directory]
          simp [hl, hnext, ih.mpr hrest]

/-- A walk stays one as long as directories do. -/
theorem Walk.mono (h : Walk t l ns m)
    (hdirs : ∀ k, t.get? k = some .directory → t'.get? k = some .directory) :
    Walk t' l ns m := by
  induction h with
  | done l => exact .done l
  | up hl _ ih => exact .up (hdirs _ hl) ih
  | down hn hl _ ih => exact .down hn (hdirs _ hl) ih

/-- A walk that never leads up goes straight down. -/
theorem Walk.eq_append (h : Walk t l ns m) (hns : ".." ∉ ns) : m = l ++ ns := by
  induction h with
  | done l => simp
  | up => simp at hns
  | down _ _ _ ih => simpa using ih (List.not_mem_of_not_mem_cons hns)

/-- It stays one as long as the directories above its end do. -/
theorem Walk.of_above (h : Walk t l ns m) (hns : ".." ∉ ns)
    (hdirs : ∀ k, k <+: m → t.get? k = some .directory → t'.get? k = some .directory) :
    Walk t' l ns m := by
  induction h with
  | done l => exact .done l
  | up => simp at hns
  | @down l m n ns hn hl hrest ih =>
    have hns' := List.not_mem_of_not_mem_cons hns
    have hm := hrest.eq_append hns'
    exact .down hn (hdirs l (by simp [hm]) hl) (ih hns' hdirs)

/-- A walk to a name leads to its neighbours as well. -/
theorem Walk.neighbour {n : String} (h : Walk t l (ns ++ [n]) m) (hn : n ≠ "..") :
    ∃ k, m = k ++ [n] ∧ ∀ n', n' ≠ ".." → Walk t l (ns ++ [n']) (k ++ [n']) := by
  induction ns generalizing l with
  | nil =>
    cases h with
    | up => exact absurd rfl hn
    | down _ hl hrest =>
      cases hrest
      exact ⟨l, rfl, fun n' hn' => .down hn' hl (.done _)⟩
  | cons k ns ih =>
    cases h with
    | up hl hrest =>
      obtain ⟨k, hm, hall⟩ := ih hrest
      exact ⟨k, hm, fun n' hn' => .up hl (hall n' hn')⟩
    | down hk hl hrest =>
      obtain ⟨k, hm, hall⟩ := ih hrest
      exact ⟨k, hm, fun n' hn' => .down hk hl (hall n' hn')⟩

/-- The last step of a walk. -/
theorem Walk.last {n : String} (h : Walk t l (ns ++ [n]) m) :
    ∃ k, t.get? k = some .directory ∧ (n = ".." ∧ m = k.dropLast ∨ n ≠ ".." ∧ m = k ++ [n]) := by
  induction ns generalizing l with
  | nil =>
    cases h with
    | up hl hrest =>
      cases hrest
      exact ⟨l, hl, .inl ⟨rfl, rfl⟩⟩
    | down hn hl hrest =>
      cases hrest
      exact ⟨l, hl, .inr ⟨hn, rfl⟩⟩
  | cons k ns ih =>
    cases h with
    | up _ hrest => exact ih hrest
    | down _ _ hrest => exact ih hrest

/-- A walk that ends at a directory goes on from there. -/
theorem walk_snoc_iff {n : String} (hn : n ≠ "..") : Walk t l (ns ++ [n]) m ↔
    ∃ k, Walk t l ns k ∧ t.get? k = some .directory ∧ m = k ++ [n] := by
  constructor
  · intro h
    induction ns generalizing l with
    | nil =>
      cases h with
      | up => exact absurd rfl hn
      | down _ hl hrest =>
        cases hrest
        exact ⟨l, .done l, hl, rfl⟩
    | cons x ns ih =>
      cases h with
      | up hl hrest =>
        obtain ⟨k, hk, hdir, hm⟩ := ih hrest
        exact ⟨k, .up hl hk, hdir, hm⟩
      | down hx hl hrest =>
        obtain ⟨k, hk, hdir, hm⟩ := ih hrest
        exact ⟨k, .down hx hl hk, hdir, hm⟩
  · rintro ⟨k, hk, hdir, rfl⟩
    induction hk with
    | done l => exact .down hn hdir (.done _)
    | up hl _ ih => exact .up hl (ih hdir)
    | down hx hl _ ih => exact .down hx hl (ih hdir)

theorem Walk.eq_foldl (h : Walk t l ns m) :
    m = (ns.foldl Path.resolveStep l.reverse).reverse := by
  induction h with
  | done l => simp
  | up hl _ ih =>
    rw [ih, List.foldl_cons, Path.resolveStep, if_pos (by simp)]
    congr 2
    simp
  | down hn hl _ ih =>
    rw [ih, List.foldl_cons, Path.resolveStep, if_neg (by simpa using hn)]
    simp

/-! ## Paths -/

/-- Where the names of a path start. -/
def origin (t : FileTree) (p : Path) : Location := if p.isAbsolute then [] else t.current.names

theorem resolve_ok_iff_walk (ht : t.Sound) (follow : Bool) {p : Path} :
    t.resolve follow p = .ok m ↔ Walk t (t.origin p) p.names m :=
  resolveFrom_ok_iff ht follow maxLinks

/-- A path ends where its absolute form says. -/
theorem Walk.eq_absolute (ht : t.Sound) {p : Path} (h : Walk t (t.origin p) p.names m) :
    m = (Path.absolute t.current p).names := by
  rw [h.eq_foldl, origin, Path.absolute, Path.join]
  split
  · rfl
  · rw [List.foldl_append,
      Path.foldl_resolveStep fun n hn => (ht.current.names n hn).notUp, List.append_nil]

theorem find_ok_iff_walk (ht : t.Sound) (follow : Bool) {p : Path} {e : Entry} :
    t.find follow p = .ok e ↔ ∃ m, Walk t (t.origin p) p.names m ∧ t.get? m = some e := by
  simp only [← resolve_ok_iff_walk ht follow, find_eq_ok_iff]

theorem isFile_iff_walk (ht : t.Sound) {p : Path} : t.isFile p = true ↔
    ∃ m b, Walk t (t.origin p) p.names m ∧ t.get? m = some (.file b) := by
  have h : t.isFile p = true ↔ ∃ b, t.find true p = .ok (.file b) := by
    rw [isFile]
    split <;> simp_all
  simp only [h, find_ok_iff_walk ht true]
  exact exists_comm

theorem isDirectory_iff_walk (ht : t.Sound) {p : Path} : t.isDirectory p = true ↔
    ∃ m, Walk t (t.origin p) p.names m ∧ t.get? m = some .directory := by
  rw [← find_ok_iff_walk ht true, isDirectory_iff_find]

theorem read_ok_iff_walk (ht : t.Sound) {p : Path} {b : List UInt8} : t.read p = .ok b ↔
    ∃ m, Walk t (t.origin p) p.names m ∧ t.get? m = some (.file b) := by
  rw [← find_ok_iff_walk ht true, read]
  split <;> simp_all

/-- Under a name that no file can have no file is found. -/
theorem isFile_replaceName_invalid (ht : t.Sound) (p : Path) {n : String}
    (hn : ¬ Path.ValidName n) : t.isFile (p.replaceName n) = false := by
  by_contra hfile
  obtain ⟨m, b, hwalk, hm⟩ := (isFile_iff_walk ht).mp (by simpa using hfile)
  obtain ⟨k, hk, ⟨-, rfl⟩ | ⟨-, rfl⟩⟩ := hwalk.last
  · rcases List.eq_nil_or_concat k with rfl | ⟨j, x, rfl⟩
    · cases hm
    · rw [List.concat_eq_append] at *
      rw [List.dropLast_concat] at hm
      rw [ht.parents j x (by rw [hk]; rfl)] at hm
      cases hm
  · exact hn (ht.names _ (by rw [hm]; rfl) n (by simp))

end SceneSync.FileTree
