import Mathlib
import SceneSync.Proofs.FileTree.Growth
import SceneSync.Proofs.Synchronisation.Reading
import SceneSync.Proofs.Synchronisation.Separate

/-!
# What stops a pass

A fault of one file is reported, and the pass goes on, in trees with links too. What it
does not outlive is an extension with which no descriptor has a name, and a watched path
that is itself taken for a descriptor, so that its scripts would lie beside it.
-/

namespace SceneSync.Syncer

open FileTree

variable {s : Syncer} {t : FileTree} {w : World} {source target : Path} {p : List String}
  {n : String} {follow : Bool}

/-- The failure for an extension with which no descriptor has a name. -/
def Unnamable (s : Syncer) (f : Failure) : Prop :=
  f = .naming (.invalidSuffix s.configuration.extension) ∧
    ¬ Path.UsableSuffix s.configuration.extension

/-- How one path can fail: by a fault of a file, or because its descriptor has no name. -/
def Fails (s : Syncer) (f : Failure) : Prop := f.isFile = true ∨ s.Unnamable f

/-- The tree has grown out of another one. -/
abbrev GrownTo (t : FileTree) (w : World) : Prop := Grown t w.tree

/-! ## One file -/

theorem contained_readBytes {P : World → Prop} (path : Path) :
    Contained P (fun f => f.isFile = true) (Work.readBytes path) :=
  Work.contained_tree fun w hw =>
    Work.contained_ofExcept (F := fun f => f.isFile = true) (fun _ _ => rfl) w hw

theorem contained_update (htarget : target.Normal) (b : List UInt8) :
    Contained (GrownTo t) (fun f => f.isFile = true) (update target b) := by
  have hparent : Placed target.parent :=
    ⟨htarget.absolute, fun n hn => .inr (htarget.names n (List.mem_of_mem_dropLast hn))⟩
  have hchange : Contained (GrownTo t) (fun f => f.isFile = true)
      (Work.change do
        FileTree.ensureDirectories target.parent
        FileTree.write target b) :=
    Work.contained_change (P := Grown t) (.bind (grown_ensureDirectories hparent) fun _ =>
      grown_write (placed_of_normal htarget) b) fun _ => rfl
  have hwrite := hchange.bind fun _ => .pure true
  refine Work.contained_tree fun w hw => ?_
  split
  · refine Contained.bind (P := GrownTo t) (contained_readBytes target) (fun old => ?_) w hw
    split
    · exact .pure _
    · exact hwrite
  · exact hwrite w hw

theorem contained_copy (htarget : target.Normal) (error : Option String) :
    Contained (GrownTo t) (fun f => f.isFile = true) (copy source target error) :=
  .bind (contained_readBytes source) fun b => .bind (contained_update htarget b) fun _ => .pure _

theorem mem_scriptSuffixes {o : ScriptOptions} {cwd : Path} (h : o.isEligible cwd source = true) :
    source.suffix ∈ Descriptor.scriptSuffixes := by
  rw [ScriptOptions.isEligible, Bool.and_eq_true] at h
  obtain ⟨d, hd⟩ := Option.isSome_iff_exists.mp h.1
  have hsuffix := List.find?_some hd
  rw [← beq_iff_eq.mp hsuffix]
  cases d <;> decide

/-- The descriptor of a script has a name unless the extension gives it none. -/
theorem unnamable_of_pathOf (hsuffix : source.suffix ∈ Descriptor.scriptSuffixes)
    {e : Path.NamingError} (he : Descriptor.pathOf source s.configuration.extension = .error e) :
    s.Unnamable (.naming e) := by
  rw [Descriptor.pathOf, if_pos (by simpa using hsuffix)] at he
  rcases Path.withSuffix_error he with ⟨rfl, hunusable⟩ | hname
  · exact ⟨rfl, hunusable⟩
  · rw [Path.suffix, hname] at hsuffix
    exact absurd hsuffix (by decide)

/-- To convert a file changes nothing, and it fails in such a way that the file can be
copied, or because its descriptor has no name. -/
theorem execute_converted?_file (hfile : w.tree.isFile source = true) : ∃ r ns,
    execute (s.converted? source) w = (r, ⟨w.tree, w.notices ++ ns⟩) ∧
      ∀ f, r = .error f → f.spoilsConversion = true ∨ s.Unnamable f := by
  by_cases heligible : s.configuration.scriptOptions.isEligible w.tree.current source = true
  · obtain ⟨b, hb⟩ := read_of_isFile hfile
    obtain ⟨r, ns, hfails, hrun⟩ := readsAlike_converted? (s := s) (.refl source _ w.tree) hb
    refine ⟨r, ns, (hrun w.notices).1, fun f hf => ?_⟩
    rcases hfails f hf with hspoils | ⟨e, he, rfl⟩
    · exact .inl hspoils
    · exact .inr (unnamable_of_pathOf (mem_scriptSuffixes heligible) he)
  · refine ⟨.ok none, [], ?_, by simp⟩
    rw [converted?, execute_bind, Work.execute_tree]
    simp only [heligible, Bool.not_false, ↓reduceIte, execute_pure, List.append_nil]

theorem contained_addFile (htarget : target.Normal) (hfile : t.isFile source = true) :
    Contained (GrownTo t) s.Fails (s.addFile source target) := by
  have hcopy (error : Option String) : Contained (GrownTo t) s.Fails
      (copy source target error) := (contained_copy htarget error).mono fun _ => .inl
  intro w hw
  obtain ⟨r, ns, hrun, hfails⟩ := execute_converted?_file (s := s) (hw.within.isFile hfile)
  have hw' : GrownTo t ⟨w.tree, w.notices ++ ns⟩ := hw
  rw [addFile, execute_bind, execute_attempt, hrun]
  rcases r with f | text?
  · cases hspoils : f.spoilsConversion with
    | true =>
      simp only [hspoils, ↓reduceIte]
      exact Contained.bind (P := GrownTo t) (.modify fun _ h => h) (fun _ => hcopy _) _ hw'
    | false =>
      simp only [hspoils, Bool.false_eq_true, ↓reduceIte]
      refine ⟨hw', ?_⟩
      rintro _ ⟨⟩
      exact .inr ((hfails f rfl).resolve_left (by simp [hspoils]))
  · cases text? with
    | none => exact hcopy none _ hw'
    | some text =>
      exact Contained.bind (P := GrownTo t) ((contained_update htarget _).mono fun _ => .inl)
        (fun _ => .pure _) _ hw'

/-! ## One path -/

theorem contained_addAlone (ha : s.Anchored) (hp : ∀ n ∈ p, Path.ValidName n) :
    Contained (GrownTo t) s.Fails (s.addAlone (s.sourceAt p)) := by
  have htarget := ha.target_normal hp
  refine Work.contained_tree fun w hw => ?_
  split
  · exact ⟨hw, by simp⟩
  rename_i hgo
  simp only [Bool.or_eq_true, Bool.not_eq_true', not_or, Bool.not_eq_true,
    Bool.not_eq_false] at hgo
  rw [execute_bind_ok (execute_target_ok (ha.outputPath hp _))]
  cases hdir : w.tree.isDirectory (s.sourceAt p) with
  | true =>
    rw [if_pos rfl]
    split
    · exact ⟨hw, by simp⟩
    · exact Contained.bind (Work.contained_change (P := Grown t)
        (grown_ensureDirectories (placed_of_normal htarget)) fun _ => .inl rfl)
        (fun _ => .pure _) w hw
  | false =>
    have hfile := isFile_of_isThere hw.grounded (placed_of_normal (ha.source_normal hp)) hgo.2 hdir
    obtain ⟨hgrown, hfails⟩ := contained_addFile (s := s) htarget hfile w (.refl hw.grounded)
    exact ⟨hw.trans hgrown, hfails⟩

/-- Unless the path is that of a file its scripts do not follow. -/
theorem contained_add (ha : s.Anchored) (hp : ∀ n ∈ p, Path.ValidName n)
    (hfollow : follow = true → t.isDirectory (s.sourceAt p) = true) :
    Contained (GrownTo t) s.Fails (s.add (s.sourceAt p) follow) := by
  refine Work.contained_tree fun w hw => ?_
  refine (contained_addAlone ha hp).bind (fun outcome => ?_) w hw
  split
  · rename_i hcond
    simp only [Bool.and_eq_true, Bool.not_eq_true', Bool.or_eq_false_iff] at hcond
    have hdir := hw.within.isDirectory (hfollow hcond.1.1)
    simp [hdir] at hcond
  · exact .pure _

/-- What a path fails by is reported, the faults of its file all of them. -/
theorem addOrWarn_contained {F : Failure → Prop}
    (h : GrownTo t (execute (s.add source follow) w).2 ∧
      ∀ f, (execute (s.add source follow) w).1 = .error f → f.isFile = true ∨ F f) :
    GrownTo t (execute (s.addOrWarn source follow) w).2 ∧
      ∀ f, (execute (s.addOrWarn source follow) w).1 = .error f → F f := by
  rw [addOrWarn, execute_tryCatch]
  rcases hadd : execute (s.add source follow) w with ⟨f | outcome, w'⟩
  · rw [hadd] at h
    cases hfile : f.isFile with
    | true =>
      simp only [hfile, Bool.not_true, Bool.false_eq_true, ↓reduceIte, warnFailed, execute_bind,
        Work.execute_notify, execute_pure]
      exact ⟨h.1, by simp⟩
    | false =>
      simp only [hfile, Bool.not_false, ↓reduceIte, execute_bind, execute_throw]
      refine ⟨h.1, ?_⟩
      rintro _ ⟨⟩
      exact (h.2 f rfl).resolve_left (by simp [hfile])
  · rw [hadd] at h
    exact ⟨h.1, by simp⟩

/-! ## Everything below a directory -/

theorem contents_eq (d : Path) : (∀ n, n ∈ (contents t d).1 ↔ t.Shows d n ∧
      t.isDirectory (d.child n) = true) ∧
    ∀ n, n ∈ (contents t d).2 ↔ t.Shows d n ∧ t.isDirectory (d.child n) = false := by
  rw [contents]
  cases hlist : t.list d with
  | error e => simp [Shows, hlist]
  | ok names => simp [Shows, hlist, List.partition_eq_filter_filter]

theorem mem_keptNames_iff : n ∈ s.keptNames t p ↔ t.Shows (s.sourceAt p) n ∧
    t.isDirectory (s.sourceAt (p ++ [n])) = true ∧ s.Keeps (p ++ [n]) := by
  rw [keptNames, List.mem_mergeSort, List.mem_filter, (contents_eq _).1, and_assoc, Keeps,
    Bool.not_eq_true', sourceAt, Path.extend_child]
  rfl

theorem mem_otherNames_iff : n ∈ s.otherNames t p ↔ t.Shows (s.sourceAt p) n ∧
    t.isDirectory (s.sourceAt (p ++ [n])) = false := by
  rw [otherNames, List.mem_mergeSort, (contents_eq _).2, sourceAt, Path.extend_child]
  rfl

theorem valid_append (hp : ∀ n ∈ p, Path.ValidName n) (hn : Path.ValidName n) :
    ∀ m ∈ p ++ [n], Path.ValidName m := by
  intro m hm
  rcases List.mem_append.mp hm with hm | hm
  · exact hp m hm
  · rwa [List.mem_singleton.mp hm]

/-- On each level the directories are there to be followed. -/
theorem contained_addKept (ha : s.Anchored) (ht : t.Grounded) (hp : ∀ n ∈ p, Path.ValidName n)
    (hn : n ∈ s.keptNames t p) :
    Contained (GrownTo t) s.Unnamable (s.addOrWarn (s.sourceAt (p ++ [n])) true) := by
  obtain ⟨hshows, hdir, -⟩ := mem_keptNames_iff.mp hn
  exact fun w hw => addOrWarn_contained
    (contained_add ha (valid_append hp (hshows.validName ht)) (fun _ => hdir) w hw)

theorem contained_addOther (ha : s.Anchored) (ht : t.Grounded) (hp : ∀ n ∈ p, Path.ValidName n)
    (hn : n ∈ s.otherNames t p) :
    Contained (GrownTo t) s.Unnamable (s.addOrWarn (s.sourceAt (p ++ [n])) false) := by
  obtain ⟨hshows, -⟩ := mem_otherNames_iff.mp hn
  exact fun w hw => addOrWarn_contained
    (contained_add ha (valid_append hp (hshows.validName ht)) (by simp) w hw)

/-- Below a directory nothing stops the pass but a descriptor without a name. -/
theorem contained_addBelow (ha : s.Anchored) (depth : Nat) (hp : ∀ n ∈ p, Path.ValidName n) :
    Contained (GrownTo t) s.Unnamable (s.addBelow depth (s.sourceAt p)) := by
  induction depth generalizing t p with
  | zero => exact .pure _
  | succ depth ih =>
    intro w hw
    have hlevel : Contained (GrownTo w.tree) s.Unnamable
        (s.addLevel depth p (s.keptNames w.tree p) (s.otherNames w.tree p)) := by
      refine .bind (.mapM fun n hn => contained_addKept ha hw.grounded hp hn) fun first =>
        .bind (.mapM fun n hn => contained_addOther ha hw.grounded hp hn) fun second =>
          .bind (.mapM fun n hn => ?_) fun below => .pure _
      have hvalid := valid_append hp ((mem_keptNames_iff.mp hn).1.validName hw.grounded)
      refine Work.contained_tree fun w' hw' => ?_
      split
      · exact ⟨hw', by simp⟩
      · exact ih hvalid w' hw'
    obtain ⟨hgrown, hfails⟩ := hlevel w (.refl hw.grounded)
    rw [execute_addBelow_names]
    exact ⟨hw.trans hgrown, hfails⟩

theorem contained_descend (ha : s.Anchored) (depth : Nat) (hp : ∀ n ∈ p, Path.ValidName n) :
    Contained (GrownTo t) s.Unnamable (do
      if (← Work.tree).isLink (s.sourceAt p) then return []
      s.addBelow depth (s.sourceAt p)) := by
  refine Work.contained_tree fun w hw => ?_
  split
  · exact ⟨hw, by simp⟩
  · exact contained_addBelow ha depth hp w hw

/-! ## The watched path itself -/

/-- What a full pass does not outlive. -/
inductive Stops (s : Syncer) (t : FileTree) : Failure → Prop
  | extension (h : ¬ Path.UsableSuffix s.configuration.extension) :
      Stops s t (.naming (.invalidSuffix s.configuration.extension))
  /-- the watched path is that of a file with the suffix of descriptors -/
  | script {q : Path} (hfile : t.isFile s.watchRoot = true)
      (hsuffix : s.watchRoot.suffix = s.configuration.extension) (hq : q ≠ s.watchRoot)
      (hscript : ∃ e ∈ Descriptor.scriptSuffixes, s.watchRoot.withSuffix e = .ok q) :
      Stops s t (.outside q s.watchRoot)

theorem names_ne_nil_of_isFile (hfile : t.isFile source = true) (hsource : source.isAbsolute) :
    source.names ≠ [] := by
  intro hnil
  obtain ⟨b, hb⟩ := isFile_iff_find.mp hfile
  obtain ⟨l, hr, hl⟩ := find_eq_ok_iff.mp hb
  rw [resolve, hsource, hnil, resolveFrom] at hr
  obtain rfl := Except.ok.inj hr
  cases hl

/-- A script beside the watched path lies outside of it. -/
theorem contained_addScriptOf (ha : s.Anchored) (hfile : t.isFile s.watchRoot = true)
    (hsuffix : s.watchRoot.suffix = s.configuration.extension) {e : String}
    (he : e ∈ Descriptor.scriptSuffixes) :
    Contained (GrownTo t) (fun f => f.isFile = true ∨ Stops s t f) (s.addScriptOf s.watchRoot e) := by
  have hne := names_ne_nil_of_isFile hfile ha.watch.absolute
  have hext : e = ".js" ∨ e = ".ts" := by simpa [Descriptor.scriptSuffixes] using he
  obtain ⟨n, hn, hq⟩ := Path.withSuffix_of_valid hne ha.watch.names hext
  have hadd : Contained (GrownTo t) (fun f => f.isFile = true ∨ Stops s t f)
      (s.addAlone (s.watchRoot.replaceName n)) := by
    by_cases hself : s.watchRoot.replaceName n = s.watchRoot
    · rw [hself, ← Path.extend_nil s.watchRoot]
      refine (contained_addAlone (p := []) ha (by simp)).mono fun f hf => ?_
      rcases hf with hf | ⟨rfl, hunusable⟩
      · exact .inl hf
      · exact .inr (.extension hunusable)
    · refine Work.contained_tree fun w hw => ?_
      split
      · exact ⟨hw, by simp⟩
      have htarget : execute (s.target (s.watchRoot.replaceName n)) w =
          (.error (.outside (s.watchRoot.replaceName n) s.watchRoot), w) := by
        rw [target, execute_bind_ok (Work.execute_absolute _ w),
          Path.absolute_of_normal _ (ha.watch.replaceName hn), outputPath,
          Path.below?_replaceName hne hself]
        rfl
      rw [execute_bind_error htarget]
      refine ⟨hw, ?_⟩
      rintro _ ⟨⟩
      exact .inr (.script hfile hsuffix hself ⟨e, he, hq⟩)
  have hpure : Work.ofExcept Failure.naming (.ok (s.watchRoot.replaceName n)) =
      pure (s.watchRoot.replaceName n) := rfl
  rw [addScriptOf, hq, hpure, pure_bind]
  refine Work.contained_tree fun w hw => ?_
  split
  · exact hadd.bind (fun _ => .pure _) w hw
  · exact ⟨hw, by simp⟩

/-- The watched path is the only one of which the scripts follow. -/
theorem addOrWarn_root (ha : s.Anchored) (ht : w.tree.Grounded) :
    GrownTo w.tree (execute (s.addOrWarn s.watchRoot true) w).2 ∧
      ∀ f, (execute (s.addOrWarn s.watchRoot true) w).1 = .error f → Stops s w.tree f := by
  have hroot : s.sourceAt [] = s.watchRoot := Path.extend_nil _
  have halone : Contained (GrownTo w.tree) (fun f => f.isFile = true ∨ Stops s w.tree f)
      (s.addAlone s.watchRoot) := by
    rw [← hroot]
    refine (contained_addAlone ha (by simp)).mono fun f hf => ?_
    rcases hf with hf | ⟨rfl, hunusable⟩
    · exact .inl hf
    · exact .inr (.extension hunusable)
  apply addOrWarn_contained
  rw [add, execute_bind_ok (Work.execute_tree w)]
  refine halone.bind (fun outcome => ?_) w (.refl ht)
  split
  · rename_i hcond
    simp only [Bool.true_and, Bool.and_eq_true, beq_iff_eq, Bool.not_eq_true',
      Bool.or_eq_false_iff, Bool.not_eq_false'] at hcond
    obtain ⟨hsuffix, ⟨-, hthere⟩, hdir⟩ := hcond
    have hfile := isFile_of_isThere ht (placed_of_normal ha.watch) hthere hdir
    rw [addScriptsOf_eq]
    exact .bind (.forM fun e he => contained_addScriptOf ha hfile hsuffix he) fun _ => .pure _
  · exact .pure _

/-- A full pass adds to the tree only, and few things stop it. -/
theorem fullPass_contained (ha : s.Anchored) (ht : w.tree.Grounded) :
    GrownTo w.tree (execute s.fullPass w).2 ∧
      ∀ f, (execute s.fullPass w).1 = .error f → Stops s w.tree f := by
  have hroot := addOrWarn_root ha ht
  rcases hadd : execute (s.addOrWarn s.watchRoot true) w with ⟨f | root, w₁⟩
  · rw [hadd] at hroot
    rw [fullPass, execute_bind_error hadd]
    refine ⟨hroot.1, ?_⟩
    rintro _ ⟨⟩
    exact hroot.2 f rfl
  · have hbelow (depth : Nat) : Contained (GrownTo w.tree) (Stops s w.tree)
        (s.addBelow depth s.watchRoot) := by
      rw [← Path.extend_nil s.watchRoot]
      refine (contained_addBelow (p := []) ha depth (by simp)).mono fun f hf => ?_
      obtain ⟨rfl, hunusable⟩ := hf
      exact .extension hunusable
    rw [fullPass, execute_bind_ok hadd, execute_bind_ok (Work.execute_tree w₁)]
    rw [hadd] at hroot
    exact (hbelow _).bind (fun _ => .pure _) w₁ hroot.1

end SceneSync.Syncer
