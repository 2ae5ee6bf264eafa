import Mathlib
import SceneSync.Proofs.FileTree.Removal
import SceneSync.Proofs.FileTree.Walk

/-!
# Sweeps

After a sweep everything at some locations has gone, and the rest is as it was. A path
leads where it led as long as none of the directories that it comes by has been swept,
those by which it goes down and up again included.
-/

namespace SceneSync.FileTree

variable {t t' t'' : FileTree} {P Q : Location → Prop} {l m k : Location} {n : String}
  {ns : List String} {p : Path} {follow : Bool}

/-- Everything at some locations has gone, and nothing else has happened. -/
structure Swept (swept : Location → Prop) (t t' : FileTree) : Prop where
  current : t'.current = t.current
  gone : ∀ l, swept l → t'.get? l = none
  kept : ∀ l, ¬ swept l → t'.get? l = t.get? l

theorem Swept.refl (t : FileTree) : Swept (fun _ => False) t t :=
  ⟨rfl, fun _ h => h.elim, fun _ _ => rfl⟩

theorem Swept.trans (h : Swept P t t') (h' : Swept Q t' t'') :
    Swept (fun l => P l ∨ Q l) t t'' := by
  refine ⟨h'.current.trans h.current, fun l hl => ?_, fun l hl => ?_⟩
  · by_cases hQ : Q l
    · exact h'.gone l hQ
    · rw [h'.kept l hQ, h.gone l (hl.resolve_right hQ)]
  · rw [not_or] at hl
    rw [h'.kept l hl.2, h.kept l hl.1]

/-- It only matters what was there. -/
theorem Swept.congr (h : Swept P t t') (hPQ : ∀ l, (t.get? l).isSome → (P l ↔ Q l)) :
    Swept Q t t' := by
  have hnone (l : Location) (hl : t.get? l = none) : t'.get? l = none := by
    by_cases hP : P l
    · exact h.gone l hP
    · rw [h.kept l hP, hl]
  refine ⟨h.current, fun l hQ => ?_, fun l hQ => ?_⟩
  · cases hl : t.get? l with
    | none => exact hnone l hl
    | some e => exact h.gone l ((hPQ l (by rw [hl]; rfl)).mpr hQ)
  · cases hl : t.get? l with
    | none => exact hnone l hl
    | some e =>
      rw [← hl]
      exact h.kept l fun hP => hQ ((hPQ l (by rw [hl]; rfl)).mp hP)

theorem swept_erase (t : FileTree) (hl : l ≠ []) : Swept (l <+: ·) t (t.erase l) := by
  have hget := get?_erase t hl
  refine ⟨rfl, fun m hm => ?_, fun m hm => ?_⟩
  · rw [hget, if_pos hm]
  · rw [hget, if_neg hm]

theorem Swept.gone_iff (h : Swept P t t') (hl : (t.get? l).isSome) : t'.get? l = none ↔ P l := by
  constructor
  · intro hnone
    by_contra hP
    rw [← h.kept l hP, hnone] at hl
    cases hl
  · exact h.gone l

theorem Swept.fewer (h : Swept P t t') : Fewer t t' := by
  refine ⟨h.current, fun l => ?_⟩
  by_cases hP : P l
  · exact .inl (h.gone l hP)
  · exact .inr (h.kept l hP)

theorem Swept.confined (h : Swept P t t') : Confined P t t' := by
  refine ⟨h.fewer, fun l hl => ?_⟩
  by_contra hP
  exact hl (h.kept l hP)

theorem Confined.trans (h : Confined P t t') (h' : Confined P t' t'') : Confined P t t'' := by
  refine ⟨h.fewer.trans h'.fewer, fun l hl => ?_⟩
  by_cases hsame : t''.get? l = t'.get? l
  · exact h.allowed l (hsame ▸ hl)
  · exact h'.allowed l hsame

/-! ## The way of a path -/

/-- The locations that names come by from a location, without the one where they end. -/
def passed : Location → List String → List Location
  | _, [] => []
  | l, n :: ns => l :: passed (if n = ".." then l.dropLast else l ++ [n]) ns

/-- Where names lead, by the names alone. -/
def landing (l : Location) (ns : List String) : Location :=
  (ns.foldl Path.resolveStep l.reverse).reverse

theorem landing_cons (l : Location) (n : String) (ns : List String) :
    landing l (n :: ns) = landing (if n = ".." then l.dropLast else l ++ [n]) ns := by
  rw [landing, landing, List.foldl_cons, Path.resolveStep]
  by_cases hn : n = ".."
  · subst hn
    simp [← List.tail_reverse]
  · simp [hn]

theorem passed_append (l : Location) (ns ms : List String) :
    passed l (ns ++ ms) = passed l ns ++ passed (landing l ns) ms := by
  induction ns generalizing l with
  | nil => simp [passed, landing]
  | cons n ns ih => rw [List.cons_append, passed, passed, ih, ← landing_cons, List.cons_append]

/-- Names walk where they lead as long as they come by directories only. -/
theorem walk_iff_passed :
    Walk t l ns m ↔ m = landing l ns ∧ ∀ k ∈ passed l ns, t.get? k = some .directory := by
  induction ns generalizing l with
  | nil =>
    constructor
    · rintro ⟨⟩
      simp [landing, passed]
    · rintro ⟨hm, -⟩
      rw [landing, List.foldl_nil, List.reverse_reverse] at hm
      rw [hm]
      exact .done l
  | cons n ns ih =>
    rw [landing_cons, passed, List.forall_mem_cons]
    constructor
    · intro h
      cases h with
      | up hl hrest => exact ⟨(ih.mp hrest).1, hl, (ih.mp hrest).2⟩
      | down hn hl hrest =>
        rw [if_neg hn]
        exact ⟨(ih.mp hrest).1, hl, (ih.mp hrest).2⟩
    · rintro ⟨hm, hl, hrest⟩
      have hwalk := ih.mpr ⟨hm, hrest⟩
      by_cases hn : n = ".."
      · rw [if_pos hn] at hwalk
        rw [hn]
        exact .up hl hwalk
      · rw [if_neg hn] at hwalk
        exact .down hn hl hwalk

/-- Names that never lead up come by what is above their end. -/
theorem prefix_of_mem_passed (hns : ".." ∉ ns) (hk : k ∈ passed l ns) : k <+: landing l ns := by
  induction ns generalizing l with
  | nil => cases hk
  | cons n ns ih =>
    obtain ⟨hn, hns⟩ := not_or.mp (mt List.mem_cons.mpr hns)
    rw [landing_cons, if_neg (Ne.symm hn)]
    rw [passed, if_neg (Ne.symm hn)] at hk
    have hend : landing (l ++ [n]) ns = l ++ n :: ns := by
      rw [landing, Path.foldl_resolveStep fun m hm hup => hns (hup ▸ hm)]
      simp
    rcases List.mem_cons.mp hk with rfl | hk
    · rw [hend]
      exact List.prefix_append k _
    · exact ih hns hk

/-- The locations that a path comes by. -/
def comesBy (t : FileTree) (p : Path) : List Location := passed (t.origin p) p.names

theorem comesBy_congr (h : t'.current = t.current) (p : Path) : t'.comesBy p = t.comesBy p := by
  rw [comesBy, comesBy, origin, origin, h]

/-- The absolute form of a path is where its names lead. -/
theorem landing_origin (ht : t.Sound) (p : Path) :
    landing (t.origin p) p.names = (Path.absolute t.current p).names := by
  rw [origin, Path.absolute, Path.join, landing]
  by_cases hp : p.isAbsolute
  · simp [hp]
  · simp only [hp, Bool.false_eq_true, ↓reduceIte, List.foldl_append]
    rw [Path.foldl_resolveStep fun n hn => (ht.current.names n hn).notUp, List.append_nil]

theorem comesBy_child (ht : t.Sound) (d : Path) (n : String) :
    t.comesBy (d.child n) = t.comesBy d ++ [(Path.absolute t.current d).names] := by
  have horigin : t.origin (d.child n) = t.origin d := rfl
  rw [comesBy, comesBy, ← landing_origin ht, horigin]
  exact passed_append (t.origin d) d.names [n]

/-- A path that never leads up comes by what is above its end. -/
theorem prefix_of_mem_comesBy (ht : t.Sound) (hp : ".." ∉ p.names) (hk : k ∈ t.comesBy p) :
    k <+: (Path.absolute t.current p).names := by
  rw [← landing_origin ht]
  exact prefix_of_mem_passed hp hk

/-- It comes by nothing below its end. -/
theorem not_mem_comesBy (ht : t.Sound) (hp : ".." ∉ p.names)
    (hbelow : (Path.absolute t.current p).names <+: k)
    (hne : k ≠ (Path.absolute t.current p).names) : k ∉ t.comesBy p :=
  fun hk => hne ((prefix_of_mem_comesBy ht hp hk).eq_of_length_le hbelow.length_le)

theorem resolve_iff_comesBy (ht : t.Sound) :
    t.resolve follow p = .ok m ↔
      m = (Path.absolute t.current p).names ∧ ∀ k ∈ t.comesBy p, t.get? k = some .directory := by
  rw [resolve_ok_iff_walk ht, walk_iff_passed, landing_origin ht, comesBy]

/-- A path still leads where it led if nothing has gone that it comes by. -/
theorem Confined.resolve (h : Confined P t t') (ht : t.Sound) (ht' : t'.Sound)
    (hr : t.resolve follow p = .ok m) (hway : ∀ k ∈ t.comesBy p, ¬ P k) :
    t'.resolve follow p = .ok m := by
  rw [resolve_iff_comesBy ht] at hr
  rw [resolve_iff_comesBy ht', h.fewer.current, comesBy_congr h.fewer.current]
  refine ⟨hr.1, fun k hk => ?_⟩
  rw [h.kept (hway k hk)]
  exact hr.2 k hk

/-- A path leads nowhere if something is missing that it comes by. -/
theorem resolve_missing (ht : t.Sound)
    (hdirs : ∀ k ∈ t.comesBy p, t.get? k = some .directory ∨ t.get? k = none)
    (hnone : ∃ k ∈ t.comesBy p, t.get? k = none) : t.resolve follow p = .error .missing := by
  have hfrom (links : Nat) (l : Location) (ns : List String)
      (hdirs : ∀ k ∈ passed l ns, t.get? k = some .directory ∨ t.get? k = none)
      (hnone : ∃ k ∈ passed l ns, t.get? k = none) :
      t.resolveFrom follow links l ns = .error .missing := by
    induction ns generalizing l with
    | nil => simp [passed] at hnone
    | cons n ns ih =>
      rw [passed, List.forall_mem_cons] at hdirs
      rw [passed, List.exists_mem_cons_iff] at hnone
      by_cases hl : t.get? l = none
      · rw [resolveFrom, hl]
      · have hdir := hdirs.1.resolve_right hl
        have hrest := ih _ hdirs.2 (hnone.resolve_left hl)
        by_cases hn : n = ".."
        · subst hn
          rw [resolveFrom_up, hdir]
          exact hrest
        · rw [if_neg hn] at hrest
          rw [resolveFrom_cons ht follow links l hn, hdir, hrest]
          simp
  exact hfrom maxLinks (t.origin p) p.names hdirs hnone

/-! ## Removals that fail -/

theorem execute_remove_missing (hr : t.resolve false p = .error .missing) :
    execute (remove p) t = (.error ⟨.missing, p⟩, t) := by
  rw [remove, execute_bind, execute_locate, hr]

theorem execute_remove_none (hr : t.resolve false p = .ok l) (hnone : t.get? l = none) :
    execute (remove p) t = (.error ⟨.missing, p⟩, t) := by
  rw [remove, execute_bind, execute_locate, hr]
  simp only [execute_bind, execute_get, hnone]
  rfl

end SceneSync.FileTree
