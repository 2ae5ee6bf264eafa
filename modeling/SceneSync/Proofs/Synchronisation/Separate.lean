import Mathlib
import SceneSync.Proofs.Execution
import SceneSync.Proofs.FileTree.Listing
import SceneSync.Synchronisation

/-!
# Separate directories

The watched directory and the output directory lie apart, so what is written in one
is not on the way to anything in the other. What is excluded there stays so further
down.
-/

namespace SceneSync.Syncer

open FileTree

/-- Both directories are known by their absolute paths. -/
structure Anchored (s : Syncer) : Prop where
  watch : s.watchRoot.Normal
  output : s.outputRoot.Normal

/-- Two directories of which neither lies in the other. -/
structure Separate (s : Syncer) : Prop where
  watch : s.watchRoot.Normal
  output : s.outputRoot.Normal
  notInOutput : ¬ s.outputRoot.names <+: s.watchRoot.names
  notInWatch : ¬ s.watchRoot.names <+: s.outputRoot.names

/-- The path in the watched directory to which names lead. -/
def sourceAt (s : Syncer) (names : List String) : Path := s.watchRoot.extend names

def targetAt (s : Syncer) (names : List String) : Path := s.outputRoot.extend names

@[simp] theorem sourceAt_names (s : Syncer) (names : List String) :
    (s.sourceAt names).names = s.watchRoot.names ++ names := rfl

theorem sourceAt_inj {s : Syncer} {p q : List String} : s.sourceAt p = s.sourceAt q ↔ p = q := by
  simp [sourceAt, Path.extend]

@[simp] theorem targetAt_names (s : Syncer) (names : List String) :
    (s.targetAt names).names = s.outputRoot.names ++ names := rfl

def Keeps (s : Syncer) (names : List String) : Prop :=
  s.excludes (s.sourceAt names).toString = false

/-- What stands in the watched directory where names lead. -/
def source? (s : Syncer) (t : FileTree) (names : List String) : Option Entry :=
  t.get? (s.watchRoot.names ++ names)

/-- What stands in the output directory where names lead. -/
def output? (s : Syncer) (t : FileTree) (names : List String) : Option Entry :=
  t.get? (s.outputRoot.names ++ names)

/-- An output directory that is empty, or that can still be made. -/
structure OutputEmpty (s : Syncer) (t : FileTree) : Prop where
  clear : t.Clear s.outputRoot.names
  nothing : ∀ p, p ≠ [] → s.output? t p = none

variable {s : Syncer} {t : FileTree} {p q : List String} {e : Entry}

theorem Separate.watch_ne_nil (hs : s.Separate) : s.watchRoot.names ≠ [] :=
  fun h => hs.notInWatch (h ▸ List.nil_prefix)

theorem Separate.output_ne_nil (hs : s.Separate) : s.outputRoot.names ≠ [] :=
  fun h => hs.notInOutput (h ▸ List.nil_prefix)

theorem Separate.anchored (hs : s.Separate) : s.Anchored := ⟨hs.watch, hs.output⟩

/-- The two directories of a configuration. -/
theorem anchored_of {c : Configuration} {cwd : Path} (hcwd : cwd.Normal)
    (hwatch : c.watchDir.WellSpelled) (houtput : c.outputDir.WellSpelled) : (of c cwd).Anchored :=
  ⟨Path.absolute_normal hcwd hwatch, Path.absolute_normal hcwd houtput⟩

theorem separate_of {c : Configuration} {cwd : Path} (hcwd : cwd.Normal)
    (hwatch : c.watchDir.WellSpelled) (houtput : c.outputDir.WellSpelled)
    (hin : ¬ (Syncer.of c cwd).outputRoot.names <+: (Syncer.of c cwd).watchRoot.names)
    (hout : ¬ (Syncer.of c cwd).watchRoot.names <+: (Syncer.of c cwd).outputRoot.names) :
    (Syncer.of c cwd).Separate :=
  have ha := anchored_of hcwd hwatch houtput
  ⟨ha.watch, ha.output, hin, hout⟩

/-! ## Exclusion -/

theorem occursIn_append (part cs ds : List Char) (h : occursIn part cs = true) :
    occursIn part (cs ++ ds) = true := by
  induction cs with
  | nil =>
    have hnil : part = [] := by simpa [occursIn] using h
    subst hnil
    cases ds <;> simp [occursIn]
  | cons c cs ih =>
    rw [occursIn, Bool.or_eq_true] at h
    rw [List.cons_append, occursIn, Bool.or_eq_true]
    rcases h with h | h
    · rw [List.isPrefixOf_iff_prefix] at h ⊢
      exact .inl (h.trans ⟨ds, rfl⟩)
    · exact .inr (ih h)

/-- What lies below something excluded is excluded too. -/
theorem Keeps.above (hs : s.Separate) (h : s.Keeps q) (hp : p <+: q) : s.Keeps p := by
  obtain ⟨ns, rfl⟩ := hp
  rw [Keeps, excludes] at *
  rw [List.any_eq_false] at *
  intro pattern hpattern hoccurs
  have htext : (s.sourceAt p).toString.toList <+: (s.sourceAt (p ++ ns)).toString.toList := by
    have := Path.toString_extend (p := s.sourceAt p) (by simp [hs.watch_ne_nil]) ns
    simpa [sourceAt, Path.extend] using this
  obtain ⟨ds, hds⟩ := htext
  refine h pattern hpattern ?_
  rw [← hds]
  exact occursIn_append _ _ _ hoccurs

/-! ## Paths -/

theorem Anchored.source_normal (ha : s.Anchored) (hp : ∀ n ∈ p, Path.ValidName n) :
    (s.sourceAt p).Normal := ha.watch.extend hp

theorem Anchored.target_normal (ha : s.Anchored) (hp : ∀ n ∈ p, Path.ValidName n) :
    (s.targetAt p).Normal := ha.output.extend hp

theorem Anchored.outputPath (ha : s.Anchored) (hp : ∀ n ∈ p, Path.ValidName n) (cwd : Path) :
    s.outputPath (Path.absolute cwd (s.sourceAt p)) = .ok (s.targetAt p) := by
  rw [Path.absolute_of_normal _ (ha.source_normal hp)]
  simp only [Syncer.outputPath, sourceAt, Path.below?_extend]
  rfl

theorem Separate.source_normal (hs : s.Separate) (hp : ∀ n ∈ p, Path.ValidName n) :
    (s.sourceAt p).Normal := hs.anchored.source_normal hp

theorem Separate.target_normal (hs : s.Separate) (hp : ∀ n ∈ p, Path.ValidName n) :
    (s.targetAt p).Normal := hs.anchored.target_normal hp

theorem Separate.outputPath (hs : s.Separate) (hp : ∀ n ∈ p, Path.ValidName n) (cwd : Path) :
    s.outputPath (Path.absolute cwd (s.sourceAt p)) = .ok (s.targetAt p) :=
  hs.anchored.outputPath hp cwd

/-! ## The two directories -/

/-- Nothing in the watched directory is on the way to anything in the output. -/
theorem source_not_above (hs : s.Separate) (p q : List String) :
    ¬ s.watchRoot.names ++ q <+: s.outputRoot.names ++ p := by
  intro h
  rcases List.prefix_or_prefix_of_prefix ((List.prefix_append _ q).trans h)
    (List.prefix_append s.outputRoot.names p) with hp | hp
  · exact hs.notInWatch hp
  · exact hs.notInOutput hp

theorem output_not_above (hs : s.Separate) (p q : List String) :
    ¬ s.outputRoot.names ++ p <+: s.watchRoot.names ++ q := by
  intro h
  rcases List.prefix_or_prefix_of_prefix ((List.prefix_append _ p).trans h)
    (List.prefix_append s.watchRoot.names q) with hp | hp
  · exact hs.notInOutput hp
  · exact hs.notInWatch hp

theorem source?_above (ht : t.Sound) (h : s.source? t p = some e) (hq : q <+: p) (hne : q ≠ p) :
    s.source? t q = some .directory :=
  ht.above (by rw [show t.get? _ = some e from h]; rfl)
    ((List.prefix_append_right_inj _).mpr hq) (by simpa using hne)

/-! ## Contents -/

/-- What stands in a directory of the source is among its contents, as what it is. -/
theorem mem_contents (hs : s.Separate) (ht : t.Sound) (hp : ∀ n ∈ p, Path.ValidName n)
    (hdir : s.source? t p = some .directory) {n : String} :
    (n ∈ (contents t (s.sourceAt p)).1 ↔ s.source? t (p ++ [n]) = some .directory) ∧
      (n ∈ (contents t (s.sourceAt p)).2 ↔ (s.source? t (p ++ [n])).isSome ∧
        s.source? t (p ++ [n]) ≠ some .directory) := by
  have hmem : n ∈ t.namesIn (s.sourceAt p).names ↔ (s.source? t (p ++ [n])).isSome := by
    rw [mem_namesIn, source?, sourceAt_names, List.append_assoc]
  have hisDir (hn : (s.source? t (p ++ [n])).isSome) :
      t.isDirectory ((s.sourceAt p).child n) = true ↔
        s.source? t (p ++ [n]) = some .directory := by
    have hvalid : ∀ k ∈ p ++ [n], Path.ValidName k := fun k hk =>
      ht.names _ hn k (List.mem_append_right _ hk)
    rw [sourceAt, Path.extend_child, ← sourceAt, isDirectory_iff ht (hs.source_normal hvalid)]
    rfl
  rw [contents, list_eq ht (hs.source_normal hp) hdir]
  simp only [List.partition_eq_filter_filter, List.mem_filter, hmem, Function.comp]
  constructor
  · constructor
    · rintro ⟨hn, h⟩
      exact (hisDir hn).mp h
    · intro h
      have hn : (s.source? t (p ++ [n])).isSome := by rw [h]; rfl
      exact ⟨hn, (hisDir hn).mpr h⟩
  · constructor
    · rintro ⟨hn, h⟩
      exact ⟨hn, fun hd => by rw [(hisDir hn).mpr hd] at h; cases h⟩
    · rintro ⟨hn, h⟩
      exact ⟨hn, by rw [Bool.not_eq_true', ← Bool.not_eq_true]; exact fun hd => h ((hisDir hn).mp hd)⟩

theorem contents_nodup (ht : t.Distinct) (directory : Path) :
    (contents t directory).1.Nodup ∧ (contents t directory).2.Nodup := by
  rw [contents]
  split
  · rename_i names hlist
    have hnames : names.Nodup := by
      rw [FileTree.list] at hlist
      split at hlist
      · cases hlist
      · split at hlist
        · rw [← Except.ok.inj hlist]
          exact ht.namesIn_nodup _
        · cases hlist
        · cases hlist
    rw [List.partition_eq_filter_filter]
    exact ⟨hnames.filter _, hnames.filter _⟩
  · exact ⟨.nil, .nil⟩

theorem valid_snoc (ht : t.Sound) {n : String} (h : (s.source? t (p ++ [n])).isSome) :
    ∀ k ∈ p ++ [n], Path.ValidName k := fun k hk =>
  ht.names _ h k (List.mem_append_right _ hk)

/-! ## One level of the walk -/

variable {w : World}

/-- The names of the directories of a level that are not excluded, in their order. -/
def keptNames (s : Syncer) (t : FileTree) (p : List String) : List String :=
  ((contents t (s.sourceAt p)).1.filter fun n =>
    !s.excludes (s.sourceAt (p ++ [n])).toString).mergeSort

def otherNames (s : Syncer) (t : FileTree) (p : List String) : List String :=
  (contents t (s.sourceAt p)).2.mergeSort

theorem mem_keptNames (hs : s.Separate) (ht : t.Sound) (hp : ∀ n ∈ p, Path.ValidName n)
    (hdir : s.source? t p = some .directory) {n : String} :
    n ∈ s.keptNames t p ↔ s.source? t (p ++ [n]) = some .directory ∧ s.Keeps (p ++ [n]) := by
  rw [keptNames, List.mem_mergeSort, List.mem_filter, (mem_contents hs ht hp hdir).1, Keeps,
    Bool.not_eq_true']

theorem mem_otherNames (hs : s.Separate) (ht : t.Sound) (hp : ∀ n ∈ p, Path.ValidName n)
    (hdir : s.source? t p = some .directory) {n : String} :
    n ∈ s.otherNames t p ↔ (s.source? t (p ++ [n])).isSome ∧
      s.source? t (p ++ [n]) ≠ some .directory := by
  rw [otherNames, List.mem_mergeSort, (mem_contents hs ht hp hdir).2]

theorem keptNames_nodup (ht : t.Distinct) (p : List String) : (s.keptNames t p).Nodup :=
  (List.mergeSort_perm _ _).nodup_iff.mpr ((contents_nodup ht _).1.filter _)

theorem otherNames_nodup (ht : t.Distinct) (p : List String) : (s.otherNames t p).Nodup :=
  (List.mergeSort_perm _ _).nodup_iff.mpr (contents_nodup ht _).2

/-- The directories of a level that are not excluded are added name by name, then what
else is there, and then what lies below those directories. -/
def addLevel (s : Syncer) (depth : Nat) (p kept others : List String) : Work (List Outcome) := do
  let first ← kept.mapM fun n => s.addOrWarn (s.sourceAt (p ++ [n])) true
  let second ← others.mapM fun n => s.addOrWarn (s.sourceAt (p ++ [n])) false
  let below ← kept.mapM fun n => do
    if (← Work.tree).isLink (s.sourceAt (p ++ [n])) then return []
    s.addBelow depth (s.sourceAt (p ++ [n]))
  return first ++ second ++ below.flatten

theorem execute_addBelow_names (s : Syncer) (depth : Nat) (p : List String) (w : World) :
    execute (s.addBelow (depth + 1) (s.sourceAt p)) w =
      execute (s.addLevel depth p (s.keptNames w.tree p) (s.otherNames w.tree p)) w := by
  have hchild (n : String) : (s.sourceAt p).child n = s.sourceAt (p ++ [n]) :=
    Path.extend_child _ _ _
  rw [addBelow, execute_bind, Work.execute_tree]
  simp only [hchild]
  rfl

theorem execute_addBelow_succ (hs : s.Separate) (ht : w.tree.Sound)
    (hp : ∀ n ∈ p, Path.ValidName n) (hdir : s.source? w.tree p = some .directory) (depth : Nat) :
    ∃ kept others : List String,
      (∀ n, n ∈ kept ↔ s.source? w.tree (p ++ [n]) = some .directory ∧ s.Keeps (p ++ [n])) ∧
      (∀ n, n ∈ others ↔ (s.source? w.tree (p ++ [n])).isSome ∧
        s.source? w.tree (p ++ [n]) ≠ some .directory) ∧
      (w.tree.Distinct → kept.Nodup ∧ others.Nodup) ∧
      execute (s.addBelow (depth + 1) (s.sourceAt p)) w =
        execute (s.addLevel depth p kept others) w :=
  ⟨_, _, fun _ => mem_keptNames hs ht hp hdir, fun _ => mem_otherNames hs ht hp hdir,
    fun hd => ⟨keptNames_nodup hd p, otherNames_nodup hd p⟩, execute_addBelow_names s depth p w⟩

/-- The walk goes down into every directory of a level that is no link. -/
theorem execute_descend (hlink : w.tree.isLink (s.sourceAt p) = false) (depth : Nat) :
    execute (do
      if (← Work.tree).isLink (s.sourceAt p) then return []
      s.addBelow depth (s.sourceAt p)) w = execute (s.addBelow depth (s.sourceAt p)) w := by
  rw [execute_bind, Work.execute_tree]
  simp only [hlink, Bool.false_eq_true, ↓reduceIte]

end SceneSync.Syncer
