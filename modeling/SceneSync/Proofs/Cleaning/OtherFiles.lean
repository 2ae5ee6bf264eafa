import Mathlib
import SceneSync.Proofs.Cleaning.Entries
import SceneSync.Proofs.FileTree.Walk
import SceneSync.Proofs.Synchronisation.Separate

/-!
# Files of other kinds

What is removed from a copied directory: the files in it that are no JSON, and the
directories left empty. A dry run names the files that are there. A run that removes
them names the same ones, as long as the path by which it started still leads to the
directory: a path that goes down and up again ends with the directory it went through.
-/

namespace SceneSync.Cleaning

open FileTree Syncer

variable {t t' : FileTree} {w w' : World} {d : Path} {c l m : Location} {n : String} {depth : Nat}
  {isTop : Bool} {allowed : Location → Prop} {names : List String} {xs : List Path}

/-! ## One level -/

/-- The names of the directories to go into, in their order. -/
def innerNames (t : FileTree) (d : Path) : List String :=
  ((contents t d).1.filter fun n => !t.isLink (d.child n)).mergeSort

/-- The files of other kinds in a directory. -/
def filesIn (t : FileTree) (d : Path) : List Path :=
  ((contents t d).2.mergeSort.map d.child).filter (·.suffix != keptSuffix)

/-- The files of other kinds in a directory and below it, what is below first. -/
def filesBelow (t : FileTree) : Nat → Path → List Path
  | 0, _ => []
  | depth + 1, d =>
    ((innerNames t d).map fun n => filesBelow t depth (d.child n)).flatten ++ filesIn t d

/-- What a run does at the end of a level: the files go, and then the directory if nothing
is left in it. -/
def emptyOut (isTop : Bool) (d : Path) (files : List Path) : Work Unit := do
  files.forM fun f => Work.change (FileTree.remove f)
  if !isTop then
    let left ← Work.ofExcept .file ((← Work.tree).list d)
    if left.isEmpty then Work.change (FileTree.removeDirectory d)

theorem execute_cleanBelow (dryRun : Bool) (depth : Nat) (isTop : Bool) (d : Path) (w : World) :
    execute (cleanBelow dryRun (depth + 1) isTop d) w =
      if w.tree.isDirectory d then execute (do
        let below ← (innerNames w.tree d).mapM fun n => cleanBelow dryRun depth false (d.child n)
        if !dryRun then emptyOut isTop d (filesIn w.tree d)
        return below.flatten ++ filesIn w.tree d) w
      else (.ok [], w) := by
  rw [cleanBelow, execute_bind, Work.execute_tree]
  simp only [list_isOk]
  cases w.tree.isDirectory d with
  | false => rfl
  | true =>
    simp only [Bool.not_true, Bool.false_eq_true, ↓reduceIte]
    cases dryRun with
    | true => simp [innerNames, filesIn]
    | false =>
      cases isTop with
      | true => simp [emptyOut, innerNames, filesIn]
      | false => simp [emptyOut, innerNames, filesIn, apply_ite]

/-- In what is no directory there is nothing. -/
theorem filesBelow_of_not_directory (h : t.isDirectory d = false) : filesBelow t depth d = [] := by
  have hcontents : contents t d = ([], []) := by
    rw [← list_isOk] at h
    rw [contents]
    split
    · simp_all [Except.isOk, Except.toBool]
    · rfl
  cases depth with
  | zero => rfl
  | succ depth => simp [filesBelow, innerNames, filesIn, hcontents]

/-- A dry run names the files that are there. -/
theorem execute_cleanBelow_dry (depth : Nat) (isTop : Bool) (d : Path) (w : World) :
    execute (cleanBelow true depth isTop d) w = (.ok (filesBelow w.tree depth d), w) := by
  induction depth generalizing isTop d with
  | zero => rfl
  | succ depth ih =>
    rw [execute_cleanBelow]
    cases hdir : w.tree.isDirectory d with
    | false => simp [filesBelow_of_not_directory hdir]
    | true =>
      rw [if_pos rfl, execute_bind_ok (execute_mapM_pure fun n _ => ih false (d.child n))]
      simp [filesBelow]

/-! ## What is in a directory -/

/-- A path to a directory leads on to what is in it. -/
theorem resolve_child_iff (ht : t.Sound) (hr : t.resolve true d = .ok c)
    (hc : t.get? c = some .directory) (hn : n ≠ "..") {follow : Bool} {l : Location} :
    t.resolve follow (d.child n) = .ok l ↔ l = c ++ [n] := by
  rw [resolve_ok_iff_walk ht] at hr ⊢
  rw [show (d.child n).names = d.names ++ [n] from rfl, walk_snoc_iff hn]
  constructor
  · rintro ⟨k, hk, -, rfl⟩
    rw [(hk.eq_absolute ht).trans (hr.eq_absolute ht).symm]
  · rintro rfl
    exact ⟨c, hr, hc, rfl⟩

/-- It leads on to what is there. -/
theorem resolve_child (ht : t.Sound) (hr : t.resolve true d = .ok c)
    (hthere : (t.get? (c ++ [n])).isSome) (follow : Bool) :
    t.resolve follow (d.child n) = .ok (c ++ [n]) :=
  (resolve_child_iff ht hr (ht.parents c n hthere) (ht.names _ hthere n (by simp)).notUp).mpr rfl

theorem contents_of_resolve (hr : t.resolve true d = .ok c) (hc : t.get? c = some .directory) :
    contents t d = (t.namesIn c).partition fun n => t.isDirectory (d.child n) := by
  have hlist : t.list d = .ok (t.namesIn c) := by
    rw [FileTree.list, hr]
    simp only [hc]
  rw [contents, hlist]

/-- What a level goes through is there. -/
theorem isSome_of_mem_level (hr : t.resolve true d = .ok c) (hc : t.get? c = some .directory)
    (h : n ∈ innerNames t d ∨ d.child n ∈ filesIn t d) : (t.get? (c ++ [n])).isSome := by
  rw [← mem_namesIn]
  rcases h with h | h
  · rw [innerNames, contents_of_resolve hr hc, List.mem_mergeSort, List.mem_filter,
      List.partition_eq_filter_filter] at h
    exact List.mem_of_mem_filter h.1
  · rw [filesIn, contents_of_resolve hr hc, List.partition_eq_filter_filter] at h
    obtain ⟨k, hk, heq⟩ := List.mem_map.mp (List.mem_of_mem_filter h)
    obtain rfl : k = n := by simpa [Path.child] using heq
    exact List.mem_of_mem_filter (List.mem_mergeSort.mp hk)

theorem isDirectory_of_mem_innerNames (hr : t.resolve true d = .ok c)
    (hc : t.get? c = some .directory) (h : n ∈ innerNames t d) :
    t.isDirectory (d.child n) = true := by
  rw [innerNames, contents_of_resolve hr hc, List.mem_mergeSort, List.mem_filter,
    List.partition_eq_filter_filter] at h
  exact (List.mem_filter.mp h.1).2

theorem isDirectory_child_iff (ht : t.Sound) (hr : t.resolve true d = .ok c)
    (hc : t.get? c = some .directory) (hn : n ∈ t.namesIn c) :
    t.isDirectory (d.child n) = true ↔ t.get? (c ++ [n]) = some .directory := by
  have hvalid := ht.names (c ++ [n]) (mem_namesIn.mp hn) n (by simp)
  simp only [isDirectory_iff_find, find_eq_ok_iff, resolve_child_iff ht hr hc hvalid.notUp,
    exists_eq_left]

theorem mem_innerNames (ht : t.Sound) (hr : t.resolve true d = .ok c)
    (hc : t.get? c = some .directory) :
    n ∈ innerNames t d ↔ t.get? (c ++ [n]) = some .directory := by
  simp only [innerNames, contents_of_resolve hr hc, isLink_eq_false ht, List.mem_mergeSort,
    List.partition_eq_filter_filter, List.mem_filter, Bool.not_false, and_true]
  constructor
  · rintro ⟨hn, hdir⟩
    exact (isDirectory_child_iff ht hr hc hn).mp hdir
  · intro hdir
    have hn : n ∈ t.namesIn c := mem_namesIn.mpr (by rw [hdir]; rfl)
    exact ⟨hn, (isDirectory_child_iff ht hr hc hn).mpr hdir⟩

theorem mem_others (ht : t.Sound) (hr : t.resolve true d = .ok c)
    (hc : t.get? c = some .directory) : n ∈ (contents t d).2.mergeSort ↔
      (t.get? (c ++ [n])).isSome ∧ t.get? (c ++ [n]) ≠ some .directory := by
  simp only [contents_of_resolve hr hc, List.mem_mergeSort, List.partition_eq_filter_filter,
    List.mem_filter, mem_namesIn]
  apply and_congr_right
  intro hn
  simp [← isDirectory_child_iff ht hr hc (mem_namesIn.mpr hn)]

theorem innerNames_nodup (hd : t.Distinct) (d : Path) : (innerNames t d).Nodup :=
  (List.mergeSort_perm _ _).nodup_iff.mpr ((contents_nodup hd d).1.filter _)

/-- The suffix of the name at a location. -/
def suffixAt (l : Location) : String := (Path.splitName (l.getLast?.getD "")).2

theorem suffixAt_append {ns : List String} (hns : ns ≠ []) (d : Path) (c : Location) :
    suffixAt (c ++ ns) = (d.extend ns).suffix := by
  rw [suffixAt, Path.suffix, Path.name, Path.extend_names, List.getLast?_append_of_ne_nil c hns,
    List.getLast?_append_of_ne_nil d.names hns]

/-- Where two trees have the same in a directory, it is gone through in the same way. -/
theorem level_eq (ht : t.Sound) (hd : t.Distinct) (ht' : t'.Sound) (hd' : t'.Distinct)
    (hr : t.resolve true d = .ok c) (hr' : t'.resolve true d = .ok c)
    (hc : t.get? c = some .directory) (hsame : ∀ l, c <+: l → t'.get? l = t.get? l) :
    innerNames t' d = innerNames t d ∧ filesIn t' d = filesIn t d := by
  have hc' : t'.get? c = some .directory := (hsame c List.prefix_rfl).trans hc
  have hnames (n : String) := hsame (c ++ [n]) (List.prefix_append c [n])
  have hothers : (contents t' d).2.mergeSort = (contents t d).2.mergeSort := by
    apply mergeSort_eq_of_mem
    · exact (List.mergeSort_perm _ _).nodup_iff.mpr (contents_nodup hd' d).2
    · exact (List.mergeSort_perm _ _).nodup_iff.mpr (contents_nodup hd d).2
    · intro n
      rw [mem_others ht' hr' hc', mem_others ht hr hc, hnames]
  constructor
  · apply mergeSort_eq_of_mem (innerNames_nodup hd' d) (innerNames_nodup hd d)
    intro n
    rw [← innerNames, ← innerNames, mem_innerNames ht' hr' hc', mem_innerNames ht hr hc, hnames]
  · rw [filesIn, filesIn, hothers]

/-! ## What lies in a directory -/

theorem below_of_snoc (h : c ++ [n] <+: l) : c <+: l ∧ l ≠ c := by
  refine ⟨(List.prefix_append c [n]).trans h, ?_⟩
  rintro rfl
  simpa using h.length_le

theorem not_above_of_snoc (h : c ++ [n] <+: l) : ¬ l <+: c :=
  fun hl => by simpa using (h.trans hl).length_le

/-- Neighbours lie apart. -/
theorem apart_of_ne {k : String} (hne : n ≠ k) (hl : c ++ [n] <+: l) :
    ¬ l <+: c ++ [k] ∧ ¬ c ++ [k] <+: l := by
  have heq {m : Location} (h : c ++ [n] <+: m) (h' : c ++ [k] <+: m) : n = k := by
    have := (List.prefix_of_prefix_length_le h h' (by simp)).eq_of_length (by simp)
    simpa using this
  exact ⟨fun h => hne (heq (hl.trans h) List.prefix_rfl), fun h => hne (heq hl h)⟩

/-- What lies at or below something in a directory is not the directory. -/
theorem ne_of_below (hl : c <+: l) (hne : l ≠ c) (hm : l <+: m) : m ≠ c := by
  rintro rfl
  exact hne (hm.eq_of_length_le hl.length_le)

/-! ## Where a run removes -/

theorem preserves_emptyOut {P : World → Prop} {files : List Path}
    (hfiles : ∀ f ∈ files, Preserves P (Work.change (FileTree.remove f)))
    (hself : isTop = true ∨ Preserves P (Work.change (FileTree.removeDirectory d))) :
    Preserves P (emptyOut isTop d files) := by
  refine .bind (.forM hfiles) fun _ => ?_
  cases isTop with
  | true => exact .pure _
  | false =>
    refine .bind (fun _ hw => hw) fun t => ?_
    cases t.list d with
    | error f => exact fun _ hw => hw
    | ok left =>
      refine .bind (.pure _) fun left => ?_
      split
      · exact hself.resolve_left (by simp)
      · exact .pure _

/-- What every removal of a location keeps is kept by a run. -/
theorem preserves_cleanBelow_of_erase {P : FileTree → Prop} (h : ∀ t l, P t → P (t.erase l))
    (depth : Nat) (isTop : Bool) (d : Path) :
    Preserves (fun w : World => P w.tree) (cleanBelow false depth isTop d) := by
  induction depth generalizing isTop d with
  | zero => exact .pure _
  | succ depth ih =>
    intro w hw
    rw [execute_cleanBelow]
    split
    · refine Preserves.bind (.mapM fun n _ => ih false (d.child n)) (fun below => ?_) w hw
      refine .bind (preserves_emptyOut (fun f _ => ?_) (.inr ?_)) fun _ => .pure _
      · exact Work.preserves_change (preserves_remove_of_erase h f)
      · exact Work.preserves_change (preserves_removeDirectory_of_erase h d)
    · exact hw

/-- The way of a path in a tree with fewer entries is its way in the other one. -/
theorem resolve_of_fewer (h : Fewer t t') (hdir : t'.isDirectory d = true) :
    ∃ c, t'.resolve true d = .ok c ∧ t'.get? c = some .directory ∧
      t.resolve true d = .ok c ∧ t.get? c = some .directory := by
  rw [isDirectory_iff_find, find_eq_ok_iff] at hdir
  obtain ⟨c, hr, hc⟩ := hdir
  exact ⟨c, hr, hc, h.within.resolve hr (by rw [hc]; rfl), h.within.directory hc⟩

/-- What a run keeps: it takes files of other kinds out of the directory, and directories
with nothing in them, the one at the top not itself. -/
theorem preserves_cleanBelow_of {P : FileTree → Prop} (ht : t.Sound)
    (hr : t.resolve true d = .ok c) (hc : t.get? c = some .directory)
    (hfewer : ∀ u, P u → Fewer t u)
    (hfile : ∀ u l b, P u → c <+: l → l ≠ c → u.get? l = some (.file b) →
      suffixAt l ≠ keptSuffix → P (u.erase l))
    (hdirectory : ∀ u l, P u → c <+: l → (l = c → isTop = false) → u.get? l = some .directory →
      (∀ n, u.get? (l ++ [n]) = none) → P (u.erase l)) (depth : Nat) :
    Preserves (fun w : World => P w.tree) (cleanBelow false depth isTop d) := by
  induction depth generalizing isTop d c with
  | zero => exact .pure _
  | succ depth ih =>
    intro w hw
    rw [execute_cleanBelow]
    split
    · rename_i hdir
      obtain ⟨c', hr', hc', hr'', -⟩ := resolve_of_fewer (hfewer _ hw) hdir
      obtain rfl := Except.ok.inj (hr.symm.trans hr'')
      -- what a level goes through leads to what is below the directory
      have hlevel {n : String} (hn : n ∈ innerNames w.tree d ∨ d.child n ∈ filesIn w.tree d)
          (follow : Bool) : t.resolve follow (d.child n) = .ok (c ++ [n]) := by
        have hthere := (hfewer _ hw).within.isSome (isSome_of_mem_level hr' hc' hn)
        exact resolve_child ht hr hthere follow
      refine Preserves.bind (P := fun w : World => P w.tree) (.mapM fun n hn => ?_)
        (fun below => ?_) w hw
      · obtain ⟨k, -, -, hk, hdir'⟩ := resolve_of_fewer (hfewer _ hw)
          (isDirectory_of_mem_innerNames hr' hc' hn)
        obtain rfl := Except.ok.inj ((hlevel (.inl hn) true).symm.trans hk)
        refine ih hk hdir' (fun u l b hu hl _ => ?_) fun u l hu hl _ => ?_
        · exact hfile u l b hu (below_of_snoc hl).1 (below_of_snoc hl).2
        · exact hdirectory u l hu (below_of_snoc hl).1 fun heq => absurd heq (below_of_snoc hl).2
      · refine .bind (preserves_emptyOut (fun f hf => ?_) ?_) fun _ => .pure _
        · have hsuffix : f.suffix ≠ keptSuffix := by simpa using (List.mem_filter.mp hf).2
          obtain ⟨n, -, rfl⟩ := List.mem_map.mp (List.mem_of_mem_filter hf)
          refine Work.preserves_change (preserves_remove_of fun u l e hu hru hl he => ?_)
          have hl' := (hfewer u hu).within.resolve hru (by rw [hl]; rfl)
          obtain rfl := Except.ok.inj ((hlevel (.inr hf) false).symm.trans hl')
          obtain ⟨b, rfl⟩ := (hfewer u hu).exists_file ht hl he
          have hin : c <+: c ++ [n] ∧ c ++ [n] ≠ c := below_of_snoc List.prefix_rfl
          exact hfile u _ b hu hin.1 hin.2 hl ((suffixAt_append (by simp) d c).trans_ne hsuffix)
        · rw [or_iff_not_imp_left]
          intro htop
          refine Work.preserves_change (preserves_removeDirectory_of fun u l hu hru hl hempty => ?_)
          have hl' := (hfewer u hu).within.resolve hru (by rw [hl]; rfl)
          rw [resolve_ok_iff_walk ht] at hr hl'
          obtain rfl : l = c := (hl'.eq_absolute ht).trans (hr.eq_absolute ht).symm
          exact hdirectory u l hu List.prefix_rfl (fun _ => by simpa using htop) hl hempty
    · exact hw

/-- A run removes in the directory and below it only, and the one at the top not itself. -/
theorem preserves_cleanBelow (ht : t.Sound) (hr : t.resolve true d = .ok c)
    (hc : t.get? c = some .directory) (hbelow : ∀ l, c <+: l → l ≠ c → allowed l)
    (hself : isTop = true ∨ allowed c) (depth : Nat) :
    Preserves (fun w : World => Confined allowed t w.tree) (cleanBelow false depth isTop d) := by
  refine preserves_cleanBelow_of ht hr hc (fun u hu => hu.fewer) (fun u l b hu hl hne _ _ => ?_)
    (fun u l hu hl htop _ _ => ?_) depth
  · exact hu.erase fun m hm => hbelow m (hl.trans hm) (ne_of_below hl hne hm)
  · refine hu.erase fun m hm => ?_
    by_cases hmc : m = c
    · subst hmc
      obtain rfl := hl.eq_of_length_le hm.length_le
      exact hself.resolve_left (by simp [htop rfl])
    · exact hbelow m (hl.trans hm) hmc

/-! ## What a run names -/

/-- The trees that a run goes through. -/
structure Cleared (t t' : FileTree) : Prop where
  fewer : Fewer t t'
  sound : t'.Sound
  distinct : t'.Distinct

theorem Cleared.refl (ht : t.Sound) (hd : t.Distinct) : Cleared t t := ⟨.refl t, ht, hd⟩

theorem preserves_cleared (t : FileTree) (depth : Nat) (isTop : Bool) (d : Path) :
    Preserves (fun w : World => Cleared t w.tree) (cleanBelow false depth isTop d) :=
  preserves_cleanBelow_of_erase (fun _ l h =>
    ⟨h.fewer.trans (fewer_erase _ l), h.sound.erase l, h.distinct.erase l⟩) depth isTop d

/-- A path that still leads to a directory leads to the one it led to. -/
theorem Cleared.resolve (h : Cleared t t') (hr : t.resolve true d = .ok c)
    (hdir : t'.isDirectory d = true) : t'.resolve true d = .ok c ∧ t'.get? c = some .directory := by
  obtain ⟨k, hr', hc', hk, -⟩ := resolve_of_fewer h.fewer hdir
  obtain rfl := Except.ok.inj (hr.symm.trans hk)
  exact ⟨hr', hc'⟩

/-- A run in one directory leaves its neighbours alone. -/
theorem preserves_neighbour {k : String} (ht : t.Sound) (hr : t.resolve true d = .ok c)
    (hn : t.get? (c ++ [n]) = some .directory) (hne : n ≠ k) (depth : Nat) : Preserves (fun w : World => Confined (fun l => ¬ c ++ [k] <+: l) t w.tree)
      (cleanBelow false depth false (d.child n)) := by
  have hchild : t.resolve true (d.child n) = .ok (c ++ [n]) :=
    resolve_child ht hr (by rw [hn]; rfl) true
  exact preserves_cleanBelow ht hchild hn (fun l hl _ => (apart_of_ne hne hl).2)
    (.inr (apart_of_ne hne List.prefix_rfl).2) depth

/-- The directories of a level one after the other. Each is found as it was at first,
unless the way to it is broken. -/
theorem innerNames_removed (ht : t.Sound) (hr : t.resolve true d = .ok c)
    (ih : ∀ (n : String) (w w' : World) (xs : List Path), t.get? (c ++ [n]) = some .directory →
      Cleared t w.tree → Confined (fun l => ¬ c ++ [n] <+: l) t w.tree →
      execute (cleanBelow false depth false (d.child n)) w = (.ok xs, w') →
      xs.Sublist (filesBelow t depth (d.child n)) ∧
        (w.tree.isDirectory (d.child n) = true → xs = filesBelow t depth (d.child n)))
    (hnames : ∀ n ∈ names, t.get? (c ++ [n]) = some .directory) (hnodup : names.Nodup)
    (hw : Cleared t w.tree) (hsame : ∀ n ∈ names, Confined (fun l => ¬ c ++ [n] <+: l) t w.tree)
    {below : List (List Path)}
    (hexec : execute (names.mapM fun n => cleanBelow false depth false (d.child n)) w =
      (.ok below, w')) :
    below.flatten.Sublist (names.map fun n => filesBelow t depth (d.child n)).flatten ∧
      (w'.tree.isDirectory d = true →
        below.flatten = (names.map fun n => filesBelow t depth (d.child n)).flatten) := by
  induction names generalizing w below with
  | nil =>
    rw [List.mapM_nil, execute_pure] at hexec
    obtain rfl := Except.ok.inj (Prod.mk.inj hexec).1
    simp
  | cons n names ihnames =>
    have hruns : Preserves (fun v : World => Cleared w.tree v.tree)
        ((n :: names).mapM fun n => cleanBelow false depth false (d.child n)) :=
      .mapM fun n _ => preserves_cleared w.tree depth false (d.child n)
    have hafter := hruns w (.refl hw.sound hw.distinct)
    rw [hexec] at hafter
    rw [List.mapM_cons] at hexec
    obtain ⟨xs, w₁, hfirst, hexec⟩ := execute_bind_eq_ok.mp hexec
    obtain ⟨rest, w₂, hrest, hexec⟩ := execute_bind_eq_ok.mp hexec
    rw [execute_pure, Prod.mk.injEq, Except.ok.injEq] at hexec
    obtain ⟨rfl, rfl⟩ := hexec
    obtain ⟨hnew, hnodup⟩ := List.nodup_cons.mp hnodup
    have hn := hnames n (by simp)
    have hw₁ := preserves_cleared t depth false (d.child n) w hw
    rw [hfirst] at hw₁
    have hsame₁ (m : String) (hm : m ∈ names) : Confined (fun l => ¬ c ++ [m] <+: l) t w₁.tree := by
      have hne : n ≠ m := fun heq => hnew (heq ▸ hm)
      have hkept := preserves_neighbour ht hr hn hne depth w (hsame m (by simp [hm]))
      rwa [hfirst] at hkept
    obtain ⟨hsub, heq⟩ := ih n w w₁ xs hn hw (hsame n (by simp)) hfirst
    obtain ⟨hsub', heq'⟩ := ihnames (fun m hm => hnames m (by simp [hm])) hnodup hw₁ hsame₁ hrest
    refine ⟨by simpa using hsub.append hsub', fun hdir => ?_⟩
    have hr' := (hw.resolve hr (hafter.fewer.isDirectory hdir)).1
    have hthere : w.tree.get? (c ++ [n]) = some .directory :=
      ((hsame n (by simp)).kept (by simp)).trans hn
    have hchild : w.tree.isDirectory (d.child n) = true := by
      rw [isDirectory_iff_find, find_eq_ok_iff]
      exact ⟨c ++ [n], resolve_child hw.sound hr' (by rw [hthere]; rfl) true, hthere⟩
    simp [heq hchild, heq' hdir]

/-- The end of a level needs the directory to be found. -/
theorem isDirectory_of_emptyOut {files : List Path} {u : Unit}
    (h : execute (emptyOut isTop d files) w = (.ok u, w'))
    (htop : isTop = true → w'.tree.isDirectory d = true) : w.tree.isDirectory d = true := by
  obtain ⟨_, w₁, hfiles, h⟩ := execute_bind_eq_ok.mp h
  have hremoves : Preserves (fun v : World => Fewer w.tree v.tree)
      (files.forM fun f => Work.change (FileTree.remove f)) :=
    .forM fun f _ => Work.preserves_change
      (preserves_remove_of_erase (fun t l h => h.trans (fewer_erase t l)) f)
  have hfewer := hremoves w (.refl w.tree)
  rw [hfiles] at hfewer
  apply hfewer.isDirectory
  cases isTop with
  | true =>
    obtain rfl := (Prod.mk.inj h).2
    exact htop rfl
  | false =>
    rw [if_pos (by simp), execute_bind, Work.execute_tree] at h
    obtain ⟨_, _, hlist, -⟩ := execute_bind_eq_ok.mp h
    rw [← list_isOk]
    cases hok : w₁.tree.list d with
    | ok left => rfl
    | error f => simp [hok] at hlist

/-- A run that has ended well names files that were there, and all of them as long as its
path has led to the directory. -/
theorem cleanBelow_removed (ht : t.Sound) (hd : t.Distinct) (hr : t.resolve true d = .ok c)
    (hc : t.get? c = some .directory) (hw : Cleared t w.tree)
    (hsame : Confined (fun l => ¬ c <+: l) t w.tree)
    (hexec : execute (cleanBelow false depth isTop d) w = (.ok xs, w')) :
    xs.Sublist (filesBelow t depth d) ∧
      (w.tree.isDirectory d = true → (isTop = true → w'.tree.isDirectory d = true) →
        xs = filesBelow t depth d) := by
  induction depth generalizing isTop d c w w' xs with
  | zero =>
    obtain rfl := Except.ok.inj (Prod.mk.inj hexec).1
    exact ⟨.slnil, fun _ _ => rfl⟩
  | succ depth ih =>
    rw [execute_cleanBelow] at hexec
    split at hexec
    · rename_i hdir
      obtain ⟨hr', hc'⟩ := hw.resolve hr hdir
      obtain ⟨hinner, hfiles⟩ := level_eq ht hd hw.sound hw.distinct hr hr' hc fun l hl =>
        hsame.kept (by simpa using hl)
      rw [hinner, hfiles] at hexec
      obtain ⟨below, w₁, hbelow, hexec⟩ := execute_bind_eq_ok.mp hexec
      obtain ⟨_, w₂, hempty, hexec⟩ := execute_bind_eq_ok.mp hexec
      rw [execute_pure, Prod.mk.injEq, Except.ok.injEq] at hexec
      obtain ⟨rfl, rfl⟩ := hexec
      have hchild (n : String) (v v' : World) (ys : List Path)
          (hn : t.get? (c ++ [n]) = some .directory) (hv : Cleared t v.tree)
          (hsame : Confined (fun l => ¬ c ++ [n] <+: l) t v.tree)
          (hexec : execute (cleanBelow false depth false (d.child n)) v = (.ok ys, v')) :
          ys.Sublist (filesBelow t depth (d.child n)) ∧
            (v.tree.isDirectory (d.child n) = true → ys = filesBelow t depth (d.child n)) := by
        have hchild := resolve_child ht hr (n := n) (by rw [hn]; rfl) true
        obtain ⟨hsub, heq⟩ := ih hchild hn hv hsame hexec
        exact ⟨hsub, fun hdir => heq hdir (by simp)⟩
      have hwider (n : String) : Confined (fun l => ¬ c ++ [n] <+: l) t w.tree :=
        hsame.mono fun l hl hn => hl ((List.prefix_append c [n]).trans hn)
      obtain ⟨hsub, heq⟩ := innerNames_removed ht hr hchild
        (fun n hn => (mem_innerNames ht hr hc).mp hn) (innerNames_nodup hd d) hw
        (fun n _ => hwider n) hbelow
      refine ⟨hsub.append (.refl _), fun _ htop => ?_⟩
      rw [heq (isDirectory_of_emptyOut hempty htop), filesBelow]
    · rename_i hdir
      obtain rfl := Except.ok.inj (Prod.mk.inj hexec).1
      exact ⟨List.nil_sublist _, fun htrue => absurd htrue hdir⟩

end SceneSync.Cleaning
