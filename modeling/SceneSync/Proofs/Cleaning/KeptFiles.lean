import Mathlib
import SceneSync.Proofs.Cleaning.OtherFiles
import SceneSync.Proofs.FileTree.Sweep

/-!
# Kept files

A run through a copied directory sweeps what goes: all in it that is no JSON file and
holds none. Each level is swept when the levels below it have been, so that a directory
is empty by then exactly if there was no JSON in it at any depth.
-/

namespace SceneSync.Cleaning

open FileTree Syncer

variable {t t' : FileTree} {w : World} {d : Path} {base c l m : Location} {n k : String}
  {depth : Nat} {isTop : Bool} {P Q : Location → Prop} {α β : Type}

/-! ## What goes -/

/-- A JSON file stands at a location or somewhere below it. -/
def HoldsJson (t : FileTree) (l : Location) : Prop :=
  ∃ ns b, t.get? (l ++ ns) = some (.file b) ∧ suffixAt (l ++ ns) = keptSuffix

theorem HoldsJson.above (h : HoldsJson t m) (hl : l <+: m) : HoldsJson t l := by
  obtain ⟨ns, b, hfile, hsuffix⟩ := h
  obtain ⟨ms, rfl⟩ := hl
  rw [List.append_assoc] at hfile hsuffix
  exact ⟨ms ++ ns, b, hfile, hsuffix⟩

/-- A directory that holds JSON has something in it that does. -/
theorem HoldsJson.inside (h : HoldsJson t l) (ht : t.Sound) (hl : t.get? l = some .directory) :
    ∃ n, (t.get? (l ++ [n])).isSome ∧ HoldsJson t (l ++ [n]) := by
  obtain ⟨ns, b, hfile, hsuffix⟩ := h
  cases ns with
  | nil =>
    rw [List.append_nil, hl] at hfile
    cases hfile
  | cons n ns =>
    have hthere : (t.get? (l ++ n :: ns)).isSome := by
      rw [hfile]
      rfl
    exact ⟨n, ht.isSome_of_prefix hthere (by simp), ns, b, by simpa using hfile,
      by simpa using hsuffix⟩

theorem holdsJson_file (ht : t.Sound) {b : List UInt8} (hl : t.get? l = some (.file b)) :
    HoldsJson t l ↔ suffixAt l = keptSuffix := by
  constructor
  · rintro ⟨ns, b', hfile, hsuffix⟩
    rwa [ht.eq_of_file hl (List.prefix_append l ns) (by rw [hfile]; rfl)] at hsuffix
  · intro hsuffix
    exact ⟨[], b, by rwa [List.append_nil], by rwa [List.append_nil]⟩

/-- What is below a file of another kind holds no JSON, if it were there. -/
theorem not_holdsJson_of_file (ht : t.Sound) {b : List UInt8} (hl : t.get? l = some (.file b))
    (hsuffix : suffixAt l ≠ keptSuffix) (hm : l <+: m) : ¬ HoldsJson t m :=
  fun h => hsuffix ((holdsJson_file ht hl).mp (h.above hm))

/-- What a run through the directory at a location takes away. -/
def Goes (t : FileTree) (base l : Location) : Prop := base <+: l ∧ l ≠ base ∧ ¬ HoldsJson t l

/-! ## Files in their order -/

/-- Every location in a directory is less than so many names away. -/
def Shallow (t : FileTree) (c : Location) (depth : Nat) : Prop :=
  ∀ l, c <+: l → (t.get? l).isSome → l.length < c.length + depth

theorem Shallow.child (h : Shallow t c (depth + 1)) (n : String) : Shallow t (c ++ [n]) depth := by
  intro l hl hthere
  have := h l ((List.prefix_append c [n]).trans hl) hthere
  rw [List.length_append, List.length_singleton]
  omega

theorem not_shallow_zero (hc : t.get? c = some .directory) : ¬ Shallow t c 0 := by
  intro h
  have := h c List.prefix_rfl (by rw [hc]; rfl)
  omega

theorem mem_filesIn (ht : t.Sound) (hr : t.resolve true d = .ok c)
    (hc : t.get? c = some .directory) {p : Path} :
    p ∈ filesIn t d ↔ ∃ n b, p = d.child n ∧ t.get? (c ++ [n]) = some (.file b) ∧
      suffixAt (c ++ [n]) ≠ keptSuffix := by
  have hsuffix (n : String) : suffixAt (c ++ [n]) = (d.child n).suffix :=
    suffixAt_append (by simp) d c
  simp only [filesIn, List.mem_filter, List.mem_map, mem_others ht hr hc, bne_iff_ne, hsuffix]
  constructor
  · rintro ⟨⟨n, ⟨hthere, hnot⟩, rfl⟩, hkept⟩
    obtain ⟨e, he⟩ := Option.isSome_iff_exists.mp hthere
    cases e with
    | file b => exact ⟨n, b, rfl, he, hkept⟩
    | directory => exact absurd he hnot
    | link target => exact absurd he (ht.noLinks _ _)
  · rintro ⟨n, b, rfl, hfile, hkept⟩
    exact ⟨⟨n, ⟨by rw [hfile]; rfl, by rw [hfile]; simp⟩, rfl⟩, hkept⟩

theorem filesIn_nodup (hd : t.Distinct) (d : Path) : (filesIn t d).Nodup := by
  refine List.Nodup.filter _ (List.Nodup.map (fun n m h => ?_) ?_)
  · simpa [Path.child] using h
  · exact (List.mergeSort_perm _ _).nodup_iff.mpr (contents_nodup hd d).2

/-- The files of other kinds, at every depth. -/
theorem mem_filesBelow (ht : t.Sound) (hr : t.resolve true d = .ok c)
    (hc : t.get? c = some .directory) (hdepth : Shallow t c depth) {p : Path} :
    p ∈ filesBelow t depth d ↔ ∃ ns b, ns ≠ [] ∧ p = d.extend ns ∧
      t.get? (c ++ ns) = some (.file b) ∧ suffixAt (c ++ ns) ≠ keptSuffix := by
  induction depth generalizing d c p with
  | zero => exact absurd hdepth (not_shallow_zero hc)
  | succ depth ih =>
    have hchild (n : String) (hn : t.get? (c ++ [n]) = some .directory) :
        p ∈ filesBelow t depth (d.child n) ↔ ∃ ns b, ns ≠ [] ∧ p = d.extend (n :: ns) ∧
          t.get? (c ++ n :: ns) = some (.file b) ∧ suffixAt (c ++ n :: ns) ≠ keptSuffix := by
      have hr' := resolve_child ht hr (n := n) (by rw [hn]; rfl) true
      have hextend (ns : List String) : (d.child n).extend ns = d.extend (n :: ns) := by
        simp [Path.extend, Path.child]
      simpa [hextend] using ih hr' hn (hdepth.child n)
    simp only [filesBelow, List.mem_append, ← List.flatMap_def, List.mem_flatMap,
      mem_innerNames ht hr hc, mem_filesIn ht hr hc]
    constructor
    · rintro (⟨n, hn, hp⟩ | ⟨n, b, rfl, hfile, hsuffix⟩)
      · obtain ⟨ns, b, -, h⟩ := (hchild n hn).mp hp
        exact ⟨n :: ns, b, by simp, h⟩
      · exact ⟨[n], b, by simp, rfl, hfile, hsuffix⟩
    · rintro ⟨ns, b, hns, rfl, hfile, hsuffix⟩
      cases ns with
      | nil => exact absurd rfl hns
      | cons n ns =>
        by_cases hlast : ns = []
        · subst hlast
          exact .inr ⟨n, b, rfl, hfile, hsuffix⟩
        · have hn : t.get? (c ++ [n]) = some .directory :=
            ht.above (m := c ++ [n]) (by rw [hfile]; rfl) (by simp) (by simpa using Ne.symm hlast)
          exact .inl ⟨n, hn, (hchild n hn).mpr ⟨ns, b, hlast, rfl, hfile, hsuffix⟩⟩

theorem filesBelow_nodup (ht : t.Sound) (hd : t.Distinct) (hr : t.resolve true d = .ok c)
    (hc : t.get? c = some .directory) (hdepth : Shallow t c depth) :
    (filesBelow t depth d).Nodup := by
  induction depth generalizing d c with
  | zero => exact List.nodup_nil
  | succ depth ih =>
    have hinner (n : String) (hn : n ∈ innerNames t d) :=
      (mem_innerNames ht hr hc).mp hn
    have hlead (n : String) (hn : n ∈ innerNames t d) :
        t.resolve true (d.child n) = .ok (c ++ [n]) :=
      resolve_child ht hr (by rw [hinner n hn]; rfl) true
    have hbelow (n : String) (hn : n ∈ innerNames t d) (p : Path)
        (hp : p ∈ filesBelow t depth (d.child n)) :
        ∃ ns, ns ≠ [] ∧ p.names = d.names ++ n :: ns := by
      obtain ⟨ns, b, hns, rfl, -⟩ :=
        (mem_filesBelow ht (hlead n hn) (hinner n hn) (hdepth.child n)).mp hp
      exact ⟨ns, hns, by simp [Path.child]⟩
    refine List.Nodup.append ?_ (filesIn_nodup hd d) ?_
    · rw [← List.flatMap_def, List.nodup_flatMap]
      refine ⟨fun n hn => ih (hlead n hn) (hinner n hn) (hdepth.child n), ?_⟩
      refine (innerNames_nodup hd d).imp_of_mem fun hn hm hne p hp hp' => ?_
      obtain ⟨ns, -, hns⟩ := hbelow _ hn p hp
      obtain ⟨ms, -, hms⟩ := hbelow _ hm p hp'
      have heq := hns.symm.trans hms
      exact hne (List.cons.inj (List.append_cancel_left heq)).1
    · intro p hp hp'
      obtain ⟨n, hn, hp⟩ := List.mem_flatMap.mp (List.flatMap_def ▸ hp)
      obtain ⟨ns, hns, hnames⟩ := hbelow n hn p hp
      obtain ⟨m, b, rfl, -⟩ := (mem_filesIn ht hr hc).mp hp'
      have hlast : m = n ∧ ns = [] := by simpa [Path.child] using hnames
      exact hns hlast.2

/-! ## Sweeping runs -/

/-- A run ends well with a result, and has swept some locations. -/
def Sweeps (swept : Location → Prop) (x : Work α) (a : α) (w : World) : Prop :=
  ∃ t', execute x w = (.ok a, { w with tree := t' }) ∧ t'.Sound ∧ t'.Distinct ∧
    Swept swept w.tree t'

namespace Sweeps

theorem pure (ht : w.tree.Sound) (hd : w.tree.Distinct) (a : α) :
    Sweeps (fun _ => False) (Pure.pure a : Work α) a w :=
  ⟨w.tree, rfl, ht, hd, .refl _⟩

theorem bind {x : Work α} {f : α → Work β} {a : α} {b : β} (hx : Sweeps P x a w)
    (hf : ∀ t', t'.Sound → t'.Distinct → Swept P w.tree t' →
      Sweeps Q (f a) b { w with tree := t' }) :
    Sweeps (fun l => P l ∨ Q l) (x >>= f) b w := by
  obtain ⟨t₁, hrun, ht₁, hd₁, hswept⟩ := hx
  obtain ⟨t₂, hrun', ht₂, hd₂, hswept'⟩ := hf t₁ ht₁ hd₁ hswept
  exact ⟨t₂, by rw [execute_bind_ok hrun, hrun'], ht₂, hd₂, hswept.trans hswept'⟩

theorem map {x : Work α} {a : α} (hx : Sweeps P x a w) (f : α → β) :
    Sweeps P (do return f (← x)) (f a) w := by
  obtain ⟨t', hrun, h⟩ := hx
  exact ⟨t', by rw [execute_bind_ok hrun, execute_pure], h⟩

theorem congr {x : Work α} {a : α} (hx : Sweeps P x a w)
    (h : ∀ l, (w.tree.get? l).isSome → (P l ↔ Q l)) : Sweeps Q x a w := by
  obtain ⟨t', hrun, ht', hd', hswept⟩ := hx
  exact ⟨t', hrun, ht', hd', hswept.congr h⟩

theorem erase {x : Change Unit} (ht : w.tree.Sound) (hd : w.tree.Distinct) (hl : l ≠ [])
    (hx : execute x w.tree = (.ok (), w.tree.erase l)) :
    Sweeps (l <+: ·) (Work.change x) () w :=
  ⟨w.tree.erase l, Work.execute_change hx, ht.erase l, hd.erase l, swept_erase w.tree hl⟩

/-- One run after the other, each of which may use what the earlier ones have left. -/
theorem mapM {f : α → Work β} {g : α → β} {R : α → Location → Prop} {xs : List α}
    (ht : w.tree.Sound) (hd : w.tree.Distinct)
    (hf : ∀ ys x zs, xs = ys ++ x :: zs → ∀ t', t'.Sound → t'.Distinct →
      Swept (fun l => ∃ y ∈ ys, R y l) w.tree t' → Sweeps (R x) (f x) (g x) { w with tree := t' }) :
    Sweeps (fun l => ∃ x ∈ xs, R x l) (xs.mapM f) (xs.map g) w := by
  induction xs generalizing w with
  | nil => exact (pure ht hd []).congr fun l _ => by simp
  | cons x xs ih =>
    have hfirst : Sweeps (R x) (f x) (g x) w :=
      hf [] x xs rfl w.tree ht hd ((Swept.refl _).congr fun l _ => by simp)
    have hrest (t₁ : FileTree) (ht₁ : t₁.Sound) (hd₁ : t₁.Distinct) (h₁ : Swept (R x) w.tree t₁) :
        Sweeps (fun l => ∃ y ∈ xs, R y l) (xs.mapM f) (xs.map g) { w with tree := t₁ } := by
      refine ih ht₁ hd₁ fun ys y zs hxs t' ht' hd' h' => ?_
      refine hf (x :: ys) y zs (by rw [hxs, List.cons_append]) t' ht' hd' ?_
      exact (h₁.trans h').congr fun l _ => by simp
    rw [List.mapM_cons, List.map_cons]
    refine (hfirst.bind fun t₁ ht₁ hd₁ h₁ => (hrest t₁ ht₁ hd₁ h₁).map (g x :: ·)).congr ?_
    exact fun l _ => by simp

theorem forM {f : α → Work PUnit} {R : α → Location → Prop} {xs : List α}
    (ht : w.tree.Sound) (hd : w.tree.Distinct)
    (hf : ∀ ys x zs, xs = ys ++ x :: zs → ∀ t', t'.Sound → t'.Distinct →
      Swept (fun l => ∃ y ∈ ys, R y l) w.tree t' → Sweeps (R x) (f x) ⟨⟩ { w with tree := t' }) :
    Sweeps (fun l => ∃ x ∈ xs, R x l) (xs.forM f) ⟨⟩ w := by
  obtain ⟨t', hrun, ht', hd', hswept⟩ := mapM (g := fun _ => PUnit.unit) ht hd hf
  exact ⟨t', execute_forM_of_mapM hrun, ht', hd', hswept⟩

end Sweeps

/-! ## One level after the levels below it -/

/-- A directory on the way of a run. Its path leads there as long as nothing has gone but
what a run takes away elsewhere. -/
structure Stage (t : FileTree) (base : Location) (d : Path) (c : Location) : Prop where
  sound : t.Sound
  distinct : t.Distinct
  below : base <+: c
  directory : t.get? c = some .directory
  leads : ∀ u : FileTree, u.Sound → Confined (fun l => Goes t base l ∧ ¬ l <+: c) t u →
    u.resolve true d = .ok c

/-- The tree when a run comes to a directory: what has gone lies beside the way to it. -/
structure Beside (t : FileTree) (base c : Location) (u : FileTree) : Prop where
  sound : u.Sound
  distinct : u.Distinct
  confined : Confined (fun l => Goes t base l ∧ ¬ l <+: c ∧ ¬ c <+: l) t u

theorem Beside.gone {u : FileTree} (h : Beside t base c u) :
    Confined (fun l => Goes t base l ∧ ¬ l <+: c) t u :=
  h.confined.mono fun _ hl => ⟨hl.1, hl.2.1⟩

theorem Beside.same {u : FileTree} (h : Beside t base c u) (hl : c <+: l) : u.get? l = t.get? l :=
  h.confined.kept fun hl' => hl'.2.2 hl

theorem Stage.resolve (h : Stage t base d c) : t.resolve true d = .ok c :=
  h.leads t h.sound (.refl t)

theorem Stage.child (h : Stage t base d c) (hn : t.get? (c ++ [n]) = some .directory) :
    Stage t base (d.child n) (c ++ [n]) := by
  refine ⟨h.sound, h.distinct, h.below.trans (List.prefix_append c [n]), hn, fun u hu hgone => ?_⟩
  have hd : u.resolve true d = .ok c := h.leads u hu <|
    hgone.mono fun l hl => ⟨hl.1, fun hlc => hl.2 (hlc.trans (List.prefix_append c [n]))⟩
  have hleft : u.get? (c ++ [n]) = some .directory :=
    (hgone.kept fun hl => hl.2 List.prefix_rfl).trans hn
  exact resolve_child hu hd (by rw [hleft]; rfl) true

theorem Stage.ne_base (h : Stage t base d c) (hl : c ++ [n] <+: l) : l ≠ base := by
  rintro rfl
  exact not_above_of_snoc hl h.below

theorem Stage.goes_of_file (h : Stage t base d c) {b : List UInt8}
    (hfile : t.get? (c ++ [n]) = some (.file b)) (hsuffix : suffixAt (c ++ [n]) ≠ keptSuffix)
    (hl : c ++ [n] <+: l) : Goes t base l :=
  ⟨h.below.trans ((List.prefix_append c [n]).trans hl), h.ne_base hl,
    not_holdsJson_of_file h.sound hfile hsuffix hl⟩

/-- The subdirectories one after the other. -/
theorem Stage.sweeps_inner (h : Stage t base d c) (hw : Beside t base c w.tree)
    (ih : ∀ n ∈ innerNames t d, ∀ w : World, Beside t base (c ++ [n]) w.tree →
      Sweeps (fun l => c ++ [n] <+: l ∧ Goes t base l) (cleanBelow false depth false (d.child n))
        (filesBelow t depth (d.child n)) w) :
    Sweeps (fun l => ∃ n ∈ innerNames t d, c ++ [n] <+: l ∧ Goes t base l)
      ((innerNames t d).mapM fun n => cleanBelow false depth false (d.child n))
      ((innerNames t d).map fun n => filesBelow t depth (d.child n)) w := by
  refine .mapM hw.sound hw.distinct fun ys n zs hxs u hu hud hswept => ?_
  refine ih n (by simp [hxs]) _ ⟨hu, hud, (hw.confined.mono ?_).trans (hswept.confined.mono ?_)⟩
  · rintro l ⟨hgoes, habove, hbelow⟩
    refine ⟨hgoes, fun hl => ?_, fun hl => hbelow ((List.prefix_append c [n]).trans hl)⟩
    rcases List.prefix_concat_iff.mp hl with rfl | hl
    · exact hbelow (List.prefix_append c [n])
    · exact habove hl
  · rintro l ⟨m, hm, hl, hgoes⟩
    have hne : m ≠ n := by
      have hnodup := innerNames_nodup h.distinct d
      rw [hxs] at hnodup
      rintro rfl
      exact (List.nodup_append.mp hnodup).2.2 m hm m (by simp) rfl
    exact ⟨hgoes, apart_of_ne hne hl⟩

/-- The files of other kinds one after the other. -/
theorem Stage.sweeps_files (h : Stage t base d c) (ht : w.tree.Sound) (hd : w.tree.Distinct)
    (hgone : Confined (fun l => Goes t base l ∧ ¬ l <+: c) t w.tree)
    (hfiles : ∀ n, d.child n ∈ filesIn t d → w.tree.get? (c ++ [n]) = t.get? (c ++ [n])) :
    Sweeps (fun l => ∃ f ∈ filesIn t d, c ++ [f.name] <+: l)
      ((filesIn t d).forM fun f => Work.change (FileTree.remove f)) ⟨⟩ w := by
  refine .forM ht hd fun ys f zs hxs u hu hud hswept => ?_
  have hmem {g : Path} (hg : g ∈ ys ∨ g = f) : g ∈ filesIn t d := by
    rw [hxs]
    rcases hg with hg | rfl <;> simp [*]
  obtain ⟨n, b, rfl, hfile, -⟩ := (mem_filesIn h.sound h.resolve h.directory).mp (hmem (.inr rfl))
  -- what has gone so far is neither on the way to the file nor the file
  have hgone' : Confined (fun l => Goes t base l ∧ ¬ l <+: c) t u := by
    refine hgone.trans (hswept.confined.mono ?_)
    rintro l ⟨g, hg, hl⟩
    obtain ⟨m, b', rfl, hfile', hsuffix⟩ :=
      (mem_filesIn h.sound h.resolve h.directory).mp (hmem (.inl hg))
    rw [Path.name_child] at hl
    exact ⟨h.goes_of_file hfile' hsuffix hl, not_above_of_snoc hl⟩
  have hleft : u.get? (c ++ [n]) = some (.file b) := by
    rw [hswept.kept, hfiles n (hmem (.inr rfl)), hfile]
    rintro ⟨g, hg, hl⟩
    obtain ⟨m, -, rfl, -⟩ := (mem_filesIn h.sound h.resolve h.directory).mp (hmem (.inl hg))
    rw [Path.name_child] at hl
    have hnodup := filesIn_nodup h.distinct d
    rw [hxs] at hnodup
    have hne : m ≠ n := by
      rintro rfl
      exact (List.nodup_append.mp hnodup).2.2 _ hg _ (by simp) rfl
    exact (apart_of_ne hne hl).2 List.prefix_rfl
  have hr : u.resolve false (d.child n) = .ok (c ++ [n]) :=
    resolve_child hu (h.leads u hu hgone') (by rw [hleft]; rfl) false
  rw [Path.name_child]
  exact .erase (w := { w with tree := u }) hu hud (by simp)
    (execute_remove_of_resolve hr hleft (by simp))

/-- What has gone from a level is all that goes and lies below its directory. -/
theorem Stage.level_iff (h : Stage t base d c) (hl : (t.get? l).isSome) :
    ((∃ n ∈ innerNames t d, c ++ [n] <+: l ∧ Goes t base l) ∨
      ∃ f ∈ filesIn t d, c ++ [f.name] <+: l) ↔ c <+: l ∧ l ≠ c ∧ Goes t base l := by
  simp only [mem_innerNames h.sound h.resolve h.directory,
    mem_filesIn h.sound h.resolve h.directory]
  constructor
  · rintro (⟨n, -, hn, hgoes⟩ | ⟨f, ⟨n, b, rfl, hfile, hsuffix⟩, hn⟩)
    · exact ⟨(below_of_snoc hn).1, (below_of_snoc hn).2, hgoes⟩
    · rw [Path.name_child] at hn
      exact ⟨(below_of_snoc hn).1, (below_of_snoc hn).2, h.goes_of_file hfile hsuffix hn⟩
  · rintro ⟨⟨ns, rfl⟩, hne, hgoes⟩
    cases ns with
    | nil => simp at hne
    | cons n ns =>
      have hn : c ++ [n] <+: c ++ n :: ns := by simp
      obtain ⟨e, he⟩ := Option.isSome_iff_exists.mp (h.sound.isSome_of_prefix hl hn)
      cases e with
      | link target => exact absurd he (h.sound.noLinks _ _)
      | directory => exact .inl ⟨n, he, hn, hgoes⟩
      | file b =>
        have hself := h.sound.eq_of_file he hn hl
        refine .inr ⟨d.child n, ⟨n, b, rfl, he, fun hsuffix => ?_⟩, by rwa [Path.name_child]⟩
        rw [hself] at hgoes
        exact hgoes.2.2 ((holdsJson_file h.sound he).mpr hsuffix)

/-- Nothing is left in a directory exactly if it has held no JSON. -/
theorem Stage.empty_iff {u v : FileTree} (h : Stage t base d c) (hu : Beside t base c u)
    (hswept : Swept (fun l => c <+: l ∧ l ≠ c ∧ Goes t base l) u v) :
    (∀ n, v.get? (c ++ [n]) = none) ↔ ¬ HoldsJson t c := by
  constructor
  · intro hempty hjson
    obtain ⟨n, hthere, hholds⟩ := hjson.inside h.sound h.directory
    have hkept := hswept.kept (c ++ [n]) fun hl => hl.2.2.2.2 hholds
    rw [← hu.same (List.prefix_append c [n]), ← hkept, hempty] at hthere
    cases hthere
  · intro hnone n
    refine hswept.gone _ ⟨List.prefix_append c [n], by simp, ?_, h.ne_base List.prefix_rfl, ?_⟩
    · exact h.below.trans (List.prefix_append c [n])
    · exact fun hholds => hnone (hholds.above (List.prefix_append c [n]))

/-- A directory goes if nothing is left in it. -/
theorem sweeps_removeIfEmpty (ht : w.tree.Sound) (hd : w.tree.Distinct)
    (hr : w.tree.resolve true d = .ok c) (hdir : w.tree.get? c = some .directory) (hne : c ≠ []) :
    Sweeps (fun l => (∀ n, w.tree.get? (c ++ [n]) = none) ∧ c <+: l) (do
      let left ← Work.ofExcept .file ((← Work.tree).list d)
      if left.isEmpty then Work.change (FileTree.removeDirectory d)) () w := by
  have hlist : w.tree.list d = .ok (w.tree.namesIn c) := by
    rw [FileTree.list, hr]
    simp only [hdir]
  have hempty : (w.tree.namesIn c).isEmpty = true ↔ ∀ n, w.tree.get? (c ++ [n]) = none := by
    rw [List.isEmpty_iff, List.eq_nil_iff_forall_not_mem]
    simp [mem_namesIn]
  obtain ⟨t', hrun, h⟩ : Sweeps (fun l => (∀ n, w.tree.get? (c ++ [n]) = none) ∧ c <+: l)
      (if (w.tree.namesIn c).isEmpty then Work.change (FileTree.removeDirectory d)
        else Pure.pure ()) () w := by
    by_cases hleft : (w.tree.namesIn c).isEmpty = true
    · have hnone := hempty.mp hleft
      have hr' : w.tree.resolve false d = .ok c := by
        rwa [resolve_ok_iff_walk ht] at hr ⊢
      rw [if_pos hleft]
      have hrun := execute_removeDirectory_of_resolve hr' hdir hnone
      exact (Sweeps.erase ht hd hne hrun).congr fun l _ => by simp [hnone]
    · rw [if_neg hleft]
      have hsome := mt hempty.mpr hleft
      exact (Sweeps.pure ht hd ()).congr fun l _ => iff_of_false not_false fun hl => hsome hl.1
  refine ⟨t', ?_, h⟩
  rw [execute_bind, Work.execute_tree]
  simp only [hlist, execute_bind, Work.execute_ofExcept_ok]
  exact hrun

/-- The end of a level: the files go, and the directory with them if that was all. -/
theorem Stage.sweeps_emptyOut (h : Stage t base d c) (htop : isTop = true ↔ c = base)
    (hw : Beside t base c w.tree) {u : FileTree} (hu : u.Sound) (hud : u.Distinct)
    (hinner : Swept (fun l => ∃ n ∈ innerNames t d, c ++ [n] <+: l ∧ Goes t base l) w.tree u) :
    Sweeps (fun l => (∃ f ∈ filesIn t d, c ++ [f.name] <+: l) ∨
        isTop = false ∧ ¬ HoldsJson t c ∧ c <+: l)
      (emptyOut isTop d (filesIn t d)) () { w with tree := u } := by
  have hgone : Confined (fun l => Goes t base l ∧ ¬ l <+: c) t u := by
    refine hw.gone.trans (hinner.confined.mono ?_)
    rintro l ⟨n, -, hl, hgoes⟩
    exact ⟨hgoes, not_above_of_snoc hl⟩
  have hfiles (n : String) (hn : d.child n ∈ filesIn t d) :
      u.get? (c ++ [n]) = t.get? (c ++ [n]) := by
    rw [hinner.kept, hw.same (List.prefix_append c [n])]
    rintro ⟨m, hm, hl, -⟩
    obtain ⟨_, b, heq, hfile, -⟩ := (mem_filesIn h.sound h.resolve h.directory).mp hn
    obtain rfl : n = _ := by simpa [Path.child] using heq
    have hdir := (mem_innerNames h.sound h.resolve h.directory).mp hm
    rw [← hl.eq_of_length (by simp), hdir] at hfile
    cases hfile
  refine (h.sweeps_files (w := { w with tree := u }) hu hud hgone hfiles).bind
    fun v hv hvd hswept => ?_
  have hlevel : Swept (fun l => c <+: l ∧ l ≠ c ∧ Goes t base l) w.tree v :=
    (hinner.trans hswept).congr fun l hl => h.level_iff (hw.confined.fewer.within.isSome hl)
  cases isTop with
  | true => exact (Sweeps.pure (w := { w with tree := v }) hv hvd ()).congr fun l _ => by simp
  | false =>
    have hdir : v.get? c = some .directory := by
      rw [hlevel.kept c fun hl => hl.2.1 rfl, hw.same List.prefix_rfl, h.directory]
    have hr : v.resolve true d = .ok c :=
      h.leads v hv <| hw.gone.trans <| hlevel.confined.mono fun l hl =>
        ⟨hl.2.2, fun hlc => hl.2.1 (hlc.eq_of_length_le hl.1.length_le)⟩
    have hne : c ≠ [] := by
      rintro rfl
      exact absurd (htop.mpr (List.prefix_nil.mp h.below).symm) (by simp)
    refine (sweeps_removeIfEmpty (w := { w with tree := v }) hv hvd hr hdir hne).congr fun l _ => ?_
    simp [h.empty_iff hw hlevel]

/-- A run sweeps what goes from the directory where it starts, and names the files of other
kinds there. -/
theorem cleanBelow_sweeps (h : Stage t base d c) (htop : isTop = true ↔ c = base)
    (hdepth : Shallow t c depth) (hw : Beside t base c w.tree) :
    Sweeps (fun l => c <+: l ∧ Goes t base l) (cleanBelow false depth isTop d)
      (filesBelow t depth d) w := by
  induction depth generalizing c d isTop w with
  | zero => exact absurd hdepth (not_shallow_zero h.directory)
  | succ depth ih =>
    have hr : w.tree.resolve true d = .ok c := h.leads _ hw.sound hw.gone
    have hdir : w.tree.isDirectory d = true := by
      rw [isDirectory_iff_find, find_eq_ok_iff]
      exact ⟨c, hr, (hw.same List.prefix_rfl).trans h.directory⟩
    obtain ⟨hinner, hfiles⟩ := level_eq h.sound h.distinct hw.sound hw.distinct h.resolve hr
      h.directory fun l => hw.same
    -- the directories below come first, each as it was at the start
    have hchild (n : String) (hn : n ∈ innerNames t d) (v : World)
        (hv : Beside t base (c ++ [n]) v.tree) :
        Sweeps (fun l => c ++ [n] <+: l ∧ Goes t base l) (cleanBelow false depth false (d.child n))
          (filesBelow t depth (d.child n)) v := by
      have hn' := (mem_innerNames h.sound h.resolve h.directory).mp hn
      refine ih (h.child hn') ?_ (hdepth.child n) hv
      exact iff_of_false (by simp) (h.ne_base List.prefix_rfl)
    have hbelow := h.sweeps_inner hw hchild
    obtain ⟨u, hrun, hu, hud, hswept⟩ := hbelow.bind (f := fun below => do
        emptyOut isTop d (filesIn t d)
        return below.flatten ++ filesIn t d)
      fun u hu hud hswept => (h.sweeps_emptyOut htop hw hu hud hswept).map _
    refine ⟨u, ?_, hu, hud, hswept.congr fun l hl => ?_⟩
    · rw [execute_cleanBelow, if_pos hdir, hinner, hfiles]
      exact hrun
    · rw [← or_assoc, h.level_iff (hw.confined.fewer.within.isSome hl)]
      constructor
      · rintro (⟨hcl, -, hgoes⟩ | ⟨hnot, hnone, hcl⟩)
        · exact ⟨hcl, hgoes⟩
        · refine ⟨hcl, h.below.trans hcl, ?_, fun hholds => hnone (hholds.above hcl)⟩
          rintro rfl
          simp [htop.mpr (hcl.eq_of_length_le h.below.length_le)] at hnot
      · rintro ⟨hcl, hgoes⟩
        by_cases heq : l = c
        · subst heq
          exact .inr ⟨Bool.eq_false_iff.mpr (mt htop.mp hgoes.2.1), hgoes.2.2, hcl⟩
        · exact .inl ⟨hcl, heq, hgoes⟩

/-! ## Whole runs -/

/-- However a run ends, no JSON file has gone, nor a directory that holds one. -/
theorem preserves_goes (ht : t.Sound) (hr : t.resolve true d = .ok c)
    (hc : t.get? c = some .directory) (depth : Nat) :
    Preserves (fun w : World => Confined (Goes t c) t w.tree) (cleanBelow false depth true d) := by
  refine preserves_cleanBelow_of ht hr hc (fun u hu => hu.fewer)
    (fun u l b hu hl hne hfile hsuffix => ?_) (fun u l hu hl htop hdir hempty => ?_) depth
  · have hthere := (hu.fewer.entries l).resolve_left (by rw [hfile]; simp)
    exact hu.erase fun m hm => ⟨hl.trans hm, ne_of_below hl hne hm,
      not_holdsJson_of_file ht (hthere.symm.trans hfile) hsuffix hm⟩
  · have hne : l ≠ c := fun heq => absurd (htop heq) (by simp)
    refine hu.erase fun m hm => ⟨hl.trans hm, ne_of_below hl hne hm, fun hholds => ?_⟩
    have hdir' : t.get? l = some .directory := hu.fewer.within.directory hdir
    obtain ⟨n, hthere, hinner⟩ := (hholds.above hm).inside ht hdir'
    have hkept : u.get? (l ++ [n]) = t.get? (l ++ [n]) :=
      hu.kept fun hgoes => hgoes.2.2 hinner
    rw [← hkept, hempty] at hthere
    cases hthere

/-- After everything has gone that goes, the JSON files are left with what is in them, and the
directories that hold one. -/
theorem left_of_swept (ht : t.Sound) (hbase : t.get? base = some .directory)
    (h : Swept (Goes t base) t t') :
    (∀ l, ¬ base <+: l ∨ l = base → t'.get? l = t.get? l) ∧
      (∀ l b, base <+: l → (t'.get? l = some (.file b) ↔
        t.get? l = some (.file b) ∧ suffixAt l = keptSuffix)) ∧
      (∀ l, base <+: l → l ≠ base → (t'.get? l = some .directory ↔
        t.get? l = some .directory ∧ HoldsJson t l)) := by
  have houtside (l : Location) (hl : ¬ base <+: l ∨ l = base) : t'.get? l = t.get? l := by
    apply h.kept
    rintro ⟨hbelow, hne, -⟩
    exact hl.elim (fun hnot => hnot hbelow) hne
  have hinside (l : Location) (e : Entry) (hl : base <+: l) (hne : l ≠ base) :
      t'.get? l = some e ↔ t.get? l = some e ∧ HoldsJson t l := by
    by_cases hholds : HoldsJson t l
    · rw [h.kept l fun hgoes => hgoes.2.2 hholds, and_iff_left hholds]
    · simp [h.gone l ⟨hl, hne, hholds⟩, hholds]
  refine ⟨houtside, fun l b hl => ?_, fun l => hinside l .directory⟩
  by_cases hne : l = base
  · rw [houtside l (.inr hne), hne, hbase]
    simp
  · rw [hinside l (.file b) hl hne]
    exact and_congr_right fun hfile => holdsJson_file ht hfile

variable {directory : Path}

/-- What a cleaning of a copied directory leaves, in a tree without links. A dry run names
the files of other kinds that are in the directory, each once, and changes nothing. The run
that removes never takes away a JSON file, nor a directory that holds one, nor anything
elsewhere. Unless something on the way of its path goes, it ends well, names the same files,
and leaves the JSON files with what is in them and the directories that hold one. A path
that never leads up has nothing on its way that goes. -/
theorem json_cleanup_leaves (ht : w.tree.Sound) (hd : w.tree.Distinct)
    (hdir : w.tree.isDirectory directory = true) :
    let base := (Path.absolute w.tree.current directory).names
    ∃ files, execute (keepJson directory true) w = (.ok files, w) ∧ files.Nodup ∧
      (∀ p, p ∈ files ↔ ∃ ns b, ns ≠ [] ∧ p = directory.extend ns ∧
        w.tree.get? (base ++ ns) = some (.file b) ∧ suffixAt (base ++ ns) ≠ keptSuffix) ∧
      (∀ l, ¬ base <+: l ∨ l = base ∨ HoldsJson w.tree l →
        (execute (keepJson directory false) w).2.tree.get? l = w.tree.get? l) ∧
      ((∀ k ∈ w.tree.comesBy directory, ¬ Goes w.tree base k) →
        ∃ t', execute (keepJson directory false) w = (.ok files, { w with tree := t' }) ∧
          (∀ l, ¬ base <+: l ∨ l = base → t'.get? l = w.tree.get? l) ∧
          (∀ l b, base <+: l → (t'.get? l = some (.file b) ↔
            w.tree.get? l = some (.file b) ∧ suffixAt l = keptSuffix)) ∧
          (∀ l, base <+: l → l ≠ base → (t'.get? l = some .directory ↔
            w.tree.get? l = some .directory ∧ HoldsJson w.tree l))) ∧
      (".." ∉ directory.names → ∀ k ∈ w.tree.comesBy directory, ¬ Goes w.tree base k) := by
  intro base
  obtain ⟨c, hr, hc⟩ := find_eq_ok_iff.mp (isDirectory_iff_find.mp hdir)
  obtain rfl : c = base := ((resolve_iff_comesBy ht).mp hr).1
  have hdepth : Shallow w.tree base (w.tree.entries.length + 1) := by
    intro l hl hthere
    have := ht.length_le hthere
    omega
  have hkeep (dryRun : Bool) : execute (keepJson directory dryRun) w =
      execute (cleanBelow dryRun (w.tree.entries.length + 1) true directory) w := by
    rw [keepJson, execute_bind, Work.execute_tree]
  refine ⟨filesBelow w.tree (w.tree.entries.length + 1) directory, ?_,
    filesBelow_nodup ht hd hr hc hdepth, fun p => mem_filesBelow ht hr hc hdepth,
    fun l hl => ?_, fun hway => ?_, fun hup k hk hgoes => ?_⟩
  · rw [hkeep, execute_cleanBelow_dry]
  · have hconfined := preserves_goes ht hr hc (w.tree.entries.length + 1) w (.refl _)
    rw [hkeep]
    refine hconfined.kept fun hgoes => ?_
    rcases hl with hl | hl | hl
    · exact hl hgoes.1
    · exact hgoes.2.1 hl
    · exact hgoes.2.2 hl
  · have hstage : Stage w.tree base directory base :=
      ⟨ht, hd, List.prefix_rfl, hc, fun u hu hgone => hgone.resolve ht hu hr fun k hk hgoes =>
        hway k hk hgoes.1⟩
    obtain ⟨t', hrun, -, -, hswept⟩ := cleanBelow_sweeps hstage (iff_of_true rfl rfl) hdepth
      ⟨ht, hd, .refl _⟩
    have hgone : Swept (Goes w.tree base) w.tree t' :=
      hswept.congr fun l _ => and_iff_right_of_imp fun hgoes => hgoes.1
    exact ⟨t', (hkeep false).trans hrun, left_of_swept ht hc hgone⟩
  · exact not_mem_comesBy ht hup hgoes.1 hgoes.2.1 hk

/-- A build with levels, a manual, and directories that hold no JSON at any depth. -/
def levelWorld : World where
  tree := ⟨.ofString "/", [(["b"], .directory), (["b", "manual.txt"], .file []),
    (["b", "maps"], .directory), (["b", "maps", "one"], .directory),
    (["b", "maps", "one", "level.json"], .file [123, 125]),
    (["b", "maps", "one", "level.png"], .file []), (["b", "maps", "two"], .directory),
    (["b", "maps", "two", ".json"], .file []), (["b", "old"], .directory),
    (["b", "old", "older"], .directory)]⟩
  notices := []

theorem levelWorld_sound : levelWorld.tree.Sound := by
  refine sound_of_entries (by decide) fun x hx => ?_
  simp only [levelWorld, List.mem_cons, List.not_mem_nil, or_false] at hx
  rcases hx with rfl | rfl | rfl | rfl | rfl | rfl | rfl | rfl | rfl | rfl
  all_goals exact ⟨by simp, by decide, by decide⟩

theorem json_cleanup_leaves_levels : levelWorld.tree.Sound ∧ levelWorld.tree.Distinct ∧
    levelWorld.tree.isDirectory (.ofString "/b") = true ∧
    ∃ files t', execute (keepJson (.ofString "/b") false) levelWorld =
        (.ok files, { levelWorld with tree := t' }) ∧
      execute (keepJson (.ofString "/b") true) levelWorld = (.ok files, levelWorld) ∧
      .ofString "/b/maps/two/.json" ∈ files ∧
      t'.get? ["b", "maps", "one", "level.json"] = some (.file [123, 125]) ∧
      t'.get? ["b", "maps", "one"] = some .directory ∧
      t'.get? ["b", "maps", "two"] ≠ some .directory ∧ t'.get? ["b"] = some .directory := by
  have hdistinct : levelWorld.tree.Distinct := by decide
  have hdir : levelWorld.tree.isDirectory (.ofString "/b") = true := by cbv
  have hbase : (Path.absolute levelWorld.tree.current (.ofString "/b")).names = ["b"] := by cbv
  obtain ⟨files, hdry, -, hmem, -, hrun, hway⟩ :=
    json_cleanup_leaves levelWorld_sound hdistinct hdir
  rw [hbase] at hmem hrun hway
  obtain ⟨t', hrun, houtside, hfiles, hdirectories⟩ := hrun (hway (by decide))
  have hone : HoldsJson levelWorld.tree ["b", "maps", "one"] :=
    ⟨["level.json"], [123, 125], by decide, by decide⟩
  have htwo : ¬ HoldsJson levelWorld.tree ["b", "maps", "two"] := by
    rintro ⟨ns, b, hfile, hsuffix⟩
    have hentry := mem_entries_of_get? (by simp) hfile
    obtain ⟨rfl, -⟩ : ns = [".json"] ∧ b = [] := by simpa [levelWorld] using hentry
    exact absurd hsuffix (by decide)
  refine ⟨levelWorld_sound, hdistinct, hdir, files, t', hrun, hdry, ?_, ?_, ?_, ?_, ?_⟩
  · exact (hmem _).mpr ⟨["maps", "two", ".json"], [], by simp, by decide, by decide, by decide⟩
  · exact (hfiles _ _ (by decide)).mpr ⟨by decide, by decide⟩
  · exact (hdirectories _ (by decide) (by decide)).mpr ⟨by decide, hone⟩
  · exact fun h => htwo ((hdirectories _ (by decide) (by decide)).mp h).2
  · rw [houtside ["b"] (.inr rfl)]
    decide

/-- A directory that is reached through one that goes. -/
theorem swept_way_stops_cleanup : execute (keepJson (.ofString "b/sub/..") false)
      ⟨⟨.ofString "/", [(["b"], .directory), (["b", "sub"], .directory),
        (["b", "sub", "x.txt"], .file []), (["b", "a.txt"], .file [])]⟩, []⟩ =
    (.error (.file ⟨.missing, .ofString "b/sub/../a.txt"⟩),
      ⟨⟨.ofString "/", [(["b"], .directory), (["b", "a.txt"], .file [])]⟩, []⟩) := by
  cbv

end SceneSync.Cleaning
