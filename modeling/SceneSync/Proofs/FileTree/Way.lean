import Mathlib
import SceneSync.Proofs.FileTree.Sound

/-!
# Ways through links

How the names of a path lead through a tree that may have links. A way that ends at an
entry is one in every larger tree too, it can be gone on with where it ends, and
without links on it it goes straight down.
-/

namespace SceneSync

/-- What a location can hold without being another way on: a file may have other bytes. -/
def Entry.Alike : Entry → Entry → Prop
  | .file _, .file _ => True
  | .directory, .directory => True
  | .link target, .link target' => target = target'
  | _, _ => False

namespace Entry.Alike

theorem refl (e : Entry) : e.Alike e := by
  cases e <;> simp [Alike]

theorem trans {e e' e'' : Entry} (h : e.Alike e') (h' : e'.Alike e'') : e.Alike e'' := by
  cases e <;> cases e' <;> cases e'' <;> simp_all [Alike]

@[simp] theorem directory_iff {e : Entry} : Entry.directory.Alike e ↔ e = .directory := by
  cases e <;> simp [Alike]

@[simp] theorem link_iff {target : String} {e : Entry} :
    (Entry.link target).Alike e ↔ e = .link target := by
  cases e <;> simp [Alike, eq_comm]

end Entry.Alike

namespace FileTree

variable {t t' t'' : FileTree} {follow : Bool} {links k : Nat} {l m : Location} {n : String}
  {ns : List String}

/-- Names that lead from one location to another through at most so many links. The last
name is not followed through a link unless it should be, and it may be missing. -/
inductive Way (t : FileTree) (follow : Bool) : Nat → Location → List String → Location → Prop
  | done (links : Nat) (l : Location) : Way t follow links l [] l
  | up {links : Nat} {l m : Location} {ns : List String} : t.get? l = some .directory →
      Way t follow links l.dropLast ns m → Way t follow links l (".." :: ns) m
  | down {links : Nat} {l m : Location} {n : String} {ns : List String} : n ≠ ".." →
      t.get? l = some .directory → (∀ target, t.get? (l ++ [n]) ≠ some (.link target)) →
      ((t.get? (l ++ [n])).isSome ∨ ns = []) → Way t follow links (l ++ [n]) ns m →
      Way t follow links l (n :: ns) m
  | link {links : Nat} {l : Location} {n target : String} : n ≠ ".." →
      t.get? l = some .directory → t.get? (l ++ [n]) = some (.link target) → follow = false →
      Way t follow links l [n] (l ++ [n])
  | through {links : Nat} {l m : Location} {n target : String} {ns : List String} : n ≠ ".." →
      t.get? l = some .directory → t.get? (l ++ [n]) = some (.link target) →
      (ns ≠ [] ∨ follow = true) →
      Way t follow links (if (Path.ofString target).isAbsolute then [] else l)
        ((Path.ofString target).names ++ ns) m →
      Way t follow (links + 1) l (n :: ns) m

theorem way_of_resolveFrom (h : t.resolveFrom follow links l ns = .ok m) :
    Way t follow links l ns m := by
  fun_induction t.resolveFrom follow links l ns with
  | case1 links l =>
    obtain rfl := Except.ok.inj h
    exact .done links l
  | case2 => cases h
  | case3 links l n ns hl hup ih =>
    obtain rfl : n = ".." := by simpa using hup
    exact .up hl (ih h)
  | case4 links l n ns hl hup target hlink hstop =>
    obtain rfl := Except.ok.inj h
    simp only [Bool.and_eq_true, List.isEmpty_iff, Bool.not_eq_true'] at hstop
    obtain ⟨rfl, hfollow⟩ := hstop
    exact .link (by simpa using hup) hl hlink hfollow
  | case5 => cases h
  | case6 l n ns hl hup target hlink hgo k p ih =>
    refine .through (by simpa using hup) hl hlink ?_ (ih h)
    by_contra hnot
    refine hgo ?_
    simp only [not_or, not_not, Bool.not_eq_true] at hnot
    simp [hnot.1, hnot.2]
  | case7 links l n ns hl hup e hnot he ih =>
    exact .down (by simpa using hup) hl (by simpa [he] using hnot) (.inl (by rw [he]; rfl)) (ih h)
  | case8 links l n ns hl hup hnone hlast =>
    obtain rfl := Except.ok.inj h
    obtain rfl : ns = [] := by simpa using hlast
    exact .down (by simpa using hup) hl (by simp [hnone]) (.inr rfl) (.done _ _)
  | case9 => cases h
  | case10 => cases h

/-! ## Steps of a way -/

theorem resolveFrom_above (hl : t.get? l = some .directory) :
    t.resolveFrom follow links l (".." :: ns) = t.resolveFrom follow links l.dropLast ns := by
  rw [resolveFrom, hl]
  simp

theorem resolveFrom_down (hn : n ≠ "..") (hl : t.get? l = some .directory)
    (hnot : ∀ target, t.get? (l ++ [n]) ≠ some (.link target))
    (hthere : (t.get? (l ++ [n])).isSome ∨ ns = []) :
    t.resolveFrom follow links l (n :: ns) = t.resolveFrom follow links (l ++ [n]) ns := by
  have hup : (n == "..") = false := by simpa using hn
  rw [resolveFrom, hl]
  simp only [hup, Bool.false_eq_true, ↓reduceIte]
  cases he : t.get? (l ++ [n]) with
  | none =>
    obtain rfl : ns = [] := hthere.resolve_left (by simp [he])
    simp [resolveFrom]
  | some e =>
    cases e with
    | link target => exact absurd he (hnot target)
    | file | directory => rfl

theorem resolveFrom_through {target : String} (hn : n ≠ "..") (hl : t.get? l = some .directory)
    (hlink : t.get? (l ++ [n]) = some (.link target)) (hgo : ns ≠ [] ∨ follow = true) :
    t.resolveFrom follow (links + 1) l (n :: ns) = t.resolveFrom follow links
      (if (Path.ofString target).isAbsolute then [] else l)
      ((Path.ofString target).names ++ ns) := by
  have hup : (n == "..") = false := by simpa using hn
  have hgo' : (ns.isEmpty && !follow) = false := by
    rw [← Bool.not_eq_true]
    simpa [or_iff_not_imp_left] using hgo
  rw [resolveFrom, hl]
  simp only [hup, hlink, hgo', Bool.false_eq_true, ↓reduceIte]

theorem resolveFrom_of_way (h : Way t follow links l ns m) :
    t.resolveFrom follow links l ns = .ok m := by
  induction h with
  | done links l => rw [resolveFrom]
  | up hl _ ih => rw [resolveFrom_above hl, ih]
  | down hn hl hnot hthere _ ih => rw [resolveFrom_down hn hl hnot hthere, ih]
  | @link links l n target hn hl hlink hfollow =>
    have hup : (n == "..") = false := by simpa using hn
    rw [resolveFrom, hl]
    simp [hup, hlink, hfollow]
  | through hn hl hlink hgo _ ih => rw [resolveFrom_through hn hl hlink hgo, ih]

theorem resolveFrom_eq_ok_iff :
    t.resolveFrom follow links l ns = .ok m ↔ Way t follow links l ns m :=
  ⟨way_of_resolveFrom, resolveFrom_of_way⟩

/-- Where a way ends at a directory it can be gone on with. -/
theorem Way.append {xs : List String} (h : Way t true links l xs m)
    (hm : t.get? m = some .directory) : ∃ k, ∀ (follow : Bool) (ns : List String), ns ≠ [] →
      t.resolveFrom follow links l (xs ++ ns) = t.resolveFrom follow k m ns := by
  induction h with
  | done links l => exact ⟨links, fun _ _ _ => rfl⟩
  | up hl _ ih =>
    obtain ⟨k, hk⟩ := ih hm
    refine ⟨k, fun follow ns hns => ?_⟩
    rw [List.cons_append, resolveFrom_above hl, hk follow ns hns]
  | @down links l m n xs hn hl hnot hthere hrest ih =>
    obtain ⟨k, hk⟩ := ih hm
    have hsome : (t.get? (l ++ [n])).isSome := by
      rcases hthere with hthere | rfl
      · exact hthere
      · cases hrest
        rw [hm]
        rfl
    refine ⟨k, fun follow ns hns => ?_⟩
    rw [List.cons_append, resolveFrom_down hn hl hnot (.inl hsome), hk follow ns hns]
  | link _ _ _ hfollow => cases hfollow
  | through hn hl hlink _ _ ih =>
    obtain ⟨k, hk⟩ := ih hm
    refine ⟨k, fun follow ns hns => ?_⟩
    rw [List.cons_append, resolveFrom_through hn hl hlink (.inl (by simp [hns])),
      ← List.append_assoc, hk follow ns hns]

/-- The names before the last lead through no link. -/
def Straight (t : FileTree) (l : Location) (ns : List String) : Prop :=
  ∀ ms, ms <+: ns → ms ≠ ns → ∀ target, t.get? (l ++ ms) ≠ some (.link target)

theorem Way.straight (h : Way t false links l ns m) (hns : ".." ∉ ns) (hs : t.Straight l ns) :
    m = l ++ ns := by
  induction h with
  | done => simp
  | up => simp at hns
  | @down links l m n ns hn hl hnot hthere hrest ih =>
    have hs' : t.Straight (l ++ [n]) ns := fun ms hms hne target => by
      simpa using hs (n :: ms) (by simpa using hms) (by simpa using hne) target
    simpa using ih (List.not_mem_of_not_mem_cons hns) hs'
  | link => rfl
  | @through links l m n target ns hn hl hlink hgo hrest ih =>
    have hne : ns ≠ [] := hgo.resolve_right (by simp)
    exact absurd hlink (hs [n] (by simp) (by simpa using hne.symm) target)

/-! ## Larger trees -/

/-- All that is in the first tree is in the second, though its files may have other
bytes there. -/
structure Within (t t' : FileTree) : Prop where
  current : t'.current = t.current
  entries : ∀ l e, t.get? l = some e → ∃ e', t'.get? l = some e' ∧ e.Alike e'

theorem Within.refl (t : FileTree) : Within t t := ⟨rfl, fun _ e he => ⟨e, he, .refl e⟩⟩

theorem Within.trans (h : Within t t') (h' : Within t' t'') : Within t t'' := by
  refine ⟨h'.current.trans h.current, fun l e he => ?_⟩
  obtain ⟨e', he', halike⟩ := h.entries l e he
  obtain ⟨e'', he'', halike'⟩ := h'.entries l e' he'
  exact ⟨e'', he'', halike.trans halike'⟩

theorem Within.directory (h : Within t t') (hl : t.get? l = some .directory) :
    t'.get? l = some .directory := by
  obtain ⟨e, he, halike⟩ := h.entries l _ hl
  rwa [Entry.Alike.directory_iff.mp halike] at he

theorem Within.link (h : Within t t') {target : String} (hl : t.get? l = some (.link target)) :
    t'.get? l = some (.link target) := by
  obtain ⟨e, he, halike⟩ := h.entries l _ hl
  rwa [Entry.Alike.link_iff.mp halike] at he

theorem Within.isSome (h : Within t t') (hl : (t.get? l).isSome) : (t'.get? l).isSome := by
  obtain ⟨e, he⟩ := Option.isSome_iff_exists.mp hl
  obtain ⟨e', he', -⟩ := h.entries l e he
  rw [he']
  rfl

/-- A way that ends at an entry is one in every larger tree. -/
theorem Way.within (h : Within t t') (hw : Way t follow links l ns m)
    (hm : (t.get? m).isSome) : Way t' follow links l ns m := by
  induction hw with
  | done => exact .done _ _
  | up hl _ ih => exact .up (h.directory hl) (ih hm)
  | @down links l m n ns hn hl hnot hthere hrest ih =>
    have hsome : (t.get? (l ++ [n])).isSome := by
      rcases hthere with hthere | rfl
      · exact hthere
      · cases hrest
        exact hm
    refine .down hn (h.directory hl) (fun target htarget => ?_) (.inl (h.isSome hsome)) (ih hm)
    obtain ⟨e, he⟩ := Option.isSome_iff_exists.mp hsome
    obtain ⟨e', he', halike⟩ := h.entries _ e he
    obtain rfl := Option.some.inj (he'.symm.trans htarget)
    cases e with
    | file | directory => exact halike
    | link target' => exact hnot _ he
  | link hn hl hlink hfollow => exact .link hn (h.directory hl) (h.link hlink) hfollow
  | through hn hl hlink hgo _ ih => exact .through hn (h.directory hl) (h.link hlink) hgo (ih hm)

/-! ## Paths -/

theorem Within.resolve (h : Within t t') {p : Path} (hr : t.resolve follow p = .ok l)
    (hl : (t.get? l).isSome) : t'.resolve follow p = .ok l := by
  rw [FileTree.resolve, resolveFrom_eq_ok_iff] at hr ⊢
  rw [h.current]
  exact hr.within h hl

/-- A path to a directory leads on from there. -/
theorem exists_resolve_extend {p : Path} (hr : t.resolve true p = .ok l)
    (hl : t.get? l = some .directory) : ∃ k, ∀ (follow : Bool) (ns : List String), ns ≠ [] →
      t.resolve follow (p.extend ns) = t.resolveFrom follow k l ns := by
  rw [resolve, resolveFrom_eq_ok_iff] at hr
  exact hr.append hl

/-- A path goes straight down from a directory where no link is on the way. -/
theorem resolve_extend_straight {p : Path} (hr : t.resolve true p = .ok l)
    (hl : t.get? l = some .directory) (hne : ns ≠ []) (hns : ".." ∉ ns) (hs : t.Straight l ns)
    (h : t.resolve false (p.extend ns) = .ok m) : m = l ++ ns := by
  obtain ⟨k, hk⟩ := exists_resolve_extend hr hl
  rw [hk false ns hne, resolveFrom_eq_ok_iff] at h
  exact h.straight hns hs

end FileTree

end SceneSync
