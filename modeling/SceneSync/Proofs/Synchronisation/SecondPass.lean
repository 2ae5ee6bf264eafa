import Mathlib
import SceneSync.Proofs.Synchronisation.Again

/-!
# Second passes

A pass after one that ended well changes nothing. The root may be a directory or a
file, or be missing; only a script whose descriptor is the output itself is made into
something else by the second pass.
-/

namespace SceneSync.Syncer

open FileTree

variable {s : Syncer} {t₀ t : FileTree} {w w' : World} {depth : Nat} {o : Outcome}

/-! ## A root that is no directory -/

theorem Again.readsAlike {x : Work Outcome} (h : Again t o x) :
    ReadsAlike (fun _ => True) t t x := by
  obtain ⟨o', ns, -, hx⟩ := h
  exact ⟨.ok o', ns, by simp, fun n => ⟨hx n, hx n⟩⟩

/-- Nothing is below what is no directory. -/
theorem execute_addBelow_nothing (hs : s.Separate) (ht : w.tree.Sound)
    (hnot : s.source? w.tree [] ≠ some .directory) :
    execute (s.addBelow (depth + 1) (s.sourceAt [])) w = (.ok [], w) := by
  have hnone : ∀ names, w.tree.list (s.sourceAt []) ≠ .ok names := by
    intro names hlist
    rw [FileTree.list] at hlist
    split at hlist
    · cases hlist
    · rename_i l hl
      obtain ⟨rfl, -⟩ := (resolve_ok_iff ht true (hs.source_normal (p := []) (by simp))).mp hl
      split at hlist
      · exact hnot ‹_›
      · cases hlist
      · cases hlist
  have hcontents : contents w.tree (s.sourceAt []) = ([], []) := by
    rw [contents]
    split
    · exact absurd ‹_› (hnone _)
    · rfl
  rw [execute_addBelow_names, keptNames, otherNames, hcontents]
  simp [addLevel]

/-- A file beside the root has no target, so to add it does nothing, or it fails. -/
theorem readsAlike_addAlone_beside (hs : s.Separate) (ht : t.Sound) {n : String}
    (hfile : t.isFile (s.watchRoot.replaceName n) = true)
    (hother : s.watchRoot.replaceName n ≠ s.watchRoot) :
    ReadsAlike (fun _ => True) t t (s.addAlone (s.watchRoot.replaceName n)) := by
  have hn : Path.ValidName n := by
    by_contra hn
    cases hfile.symm.trans (isFile_replaceName_invalid ht _ hn)
  have houtside : s.outputPath (Path.absolute t.current (s.watchRoot.replaceName n)) =
      .error (.outside (s.watchRoot.replaceName n) s.watchRoot) := by
    rw [Path.absolute_of_normal _ (hs.watch.replaceName hn), outputPath,
      Path.below?_replaceName hs.watch_ne_nil hother]
  have hfails (notices : List Notice) :
      execute (s.target (s.watchRoot.replaceName n)) ⟨t, notices⟩ =
        (.error (.outside (s.watchRoot.replaceName n) s.watchRoot), ⟨t, notices⟩) := by
    rw [target, execute_bind, Work.execute_absolute]
    simp only
    rw [houtside]
    rfl
  rw [addAlone]
  refine .tree rfl ?_
  split
  · exact .pure _
  · refine ⟨.error (.outside (s.watchRoot.replaceName n) s.watchRoot), [], by simp,
      fun notices => ?_⟩
    rw [execute_bind_error (hfails notices), List.append_nil]
    exact ⟨rfl, rfl⟩

/-- Of the scripts beside the root none but itself has a target. -/
theorem readsAlike_addScriptOf (hs : s.Separate) (ht : t.Sound)
    (hagain : Again t o (s.addAlone s.watchRoot)) (extension : String) :
    ReadsAlike (fun _ => True) t t (s.addScriptOf s.watchRoot extension) := by
  rw [addScriptOf]
  cases hscript : s.watchRoot.withSuffix extension with
  | error e =>
    have hthrow : ReadsAlike (fun _ => True) t t (throw (.naming e) : Work Unit) := .throw trivial
    exact hthrow
  | ok script =>
    have hpure : Work.ofExcept Failure.naming (.ok script) = pure script := rfl
    obtain ⟨n, rfl⟩ := Path.withSuffix_replaceName hscript
    rw [hpure, pure_bind]
    refine .tree rfl ?_
    split
    · refine .bind ?_ fun _ => .pure _
      by_cases hself : s.watchRoot.replaceName n = s.watchRoot
      · rw [hself]
        exact hagain.readsAlike
      · exact readsAlike_addAlone_beside hs ht ‹_› hself
    · exact .pure _

theorem readsAlike_addScriptsOf (hs : s.Separate) (ht : t.Sound)
    (hagain : Again t o (s.addAlone s.watchRoot)) :
    ReadsAlike (fun _ => True) t t (s.addScriptsOf s.watchRoot) := by
  rw [addScriptsOf_eq]
  generalize Descriptor.scriptSuffixes = extensions
  induction extensions with
  | nil => exact .pure _
  | cons extension extensions ih =>
    rw [List.forM_cons]
    exact .bind (readsAlike_addScriptOf hs ht hagain extension) fun _ => ih

/-- Where the output is the descriptor of the root itself, the first pass changes what
the second makes of the root. -/
def OwnDescriptor (s : Syncer) (t : FileTree) : Prop :=
  (∃ content, s.source? t [] = some (.file content)) ∧
    s.configuration.scriptOptions.isEligible t.current s.watchRoot = true ∧
    ∃ d, Descriptor.pathOf s.watchRoot s.configuration.extension = .ok d ∧
      d.names = s.outputRoot.names

/-- The first addition of a file that is the root does not change what it becomes. -/
theorem Fills.sameDue_root (hs : s.Separate) (ht₀ : t₀.Sound) (hv : Underway s t₀ t)
    (hfills : Fills s t₀ [] t₀ t) (hown : ¬ OwnDescriptor s t₀) {content : List UInt8}
    (hfile : s.source? t₀ [] = some (.file content)) : SameDue s (s.sourceAt []) t₀ t := by
  have hnormal : (s.sourceAt []).Normal := hs.source_normal (by simp)
  have hread₀ := (read_ok_iff ht₀ hnormal).mpr hfile
  have hread := (read_ok_iff hv.sound hnormal).mpr ((hv.source []).trans hfile)
  by_cases heligible :
      s.configuration.scriptOptions.isEligible t₀.current (s.sourceAt []) = true
  · refine sameDue_of_sameScript (sameScript_of_files hnormal ht₀ hv.sound hv.current hfile
      ((hv.source []).trans hfile) fun n _ hd b => ?_) hread₀
    have hwatch : s.sourceAt [] = s.watchRoot := Path.extend_nil _
    rw [hwatch] at heligible hd ⊢
    cases hfills with
    | passed heq => rw [heq]
    | filled _ _ hbrings _ =>
      refine hbrings.file_iff fun heq => hown ⟨⟨content, hfile⟩, heligible, _, hd, ?_⟩
      rw [heq, List.append_nil]
  · exact sameDue_of_ineligible hv.current (hread.trans hread₀.symm) (by simpa using heligible)

/-- Whether the scripts of a path follow it. -/
def Follows (s : Syncer) (t : FileTree) (source : Path) : Prop :=
  source.suffix = s.configuration.extension ∧ s.excludes source.toString = false ∧
    t.isThere source = true ∧ t.isDirectory source = false

instance (s : Syncer) (t : FileTree) (source : Path) : Decidable (Follows s t source) :=
  inferInstanceAs (Decidable (_ ∧ _))

theorem execute_add_follow (s : Syncer) (source : Path) (w : World) :
    execute (s.add source true) w = execute (do
      let outcome ← s.addAlone source
      if Follows s w.tree source then s.addScriptsOf source
      return outcome) w := by
  have hfollows : (true && source.suffix == s.configuration.extension &&
      !(s.excludes source.toString || !w.tree.isThere source || w.tree.isDirectory source)) =
        decide (Follows s w.tree source) := by
    rw [Bool.eq_iff_iff, decide_eq_true_iff, Follows]
    simp [and_assoc]
  rw [add, execute_bind, Work.execute_tree]
  simp only [hfollows, decide_eq_true_eq]

/-- A root that is excluded or gone is passed over again. -/
theorem add_root_passed (hs : s.Separate) (ht : t.Sound) (hdistinct : t.Distinct)
    (hpassed : s.Keeps [] → s.source? t [] = none) (n : List Notice) :
    execute (s.add s.watchRoot true) ⟨t, n⟩ =
      (.ok ⟨s.watchRoot, .ignored, none, none⟩, ⟨t, n⟩) := by
  have hwatch : s.watchRoot = s.sourceAt [] := (Path.extend_nil _).symm
  have hstays : ¬ Follows s t s.watchRoot := by
    rintro ⟨-, hkeep, hthere, -⟩
    rw [hwatch] at hkeep hthere
    have hsome := (isThere_iff ht (hs.source_normal (by simp))).mp hthere
    rw [show t.get? (s.sourceAt []).names = none from hpassed hkeep] at hsome
    cases hsome
  have halone := Underway.execute_addAlone_passed (w := ⟨t, n⟩) hs
    (Underway.start ht hdistinct) (p := []) (by simp) hpassed
  rw [← hwatch] at halone
  rw [execute_add_follow, execute_bind_ok halone, if_neg hstays]
  rfl

/-- A file that is the root is added again, and nothing happens. -/
theorem add_root_file (hs : s.Separate) (ht : w.tree.Sound) (hdistinct : w.tree.Distinct)
    (hkeep : s.Keeps []) {content : List UInt8}
    (hfile : s.source? w.tree [] = some (.file content)) (hown : ¬ OwnDescriptor s w.tree)
    (hexec : execute (s.add s.watchRoot true) w = (.ok o, w')) :
    Underway s w.tree w'.tree ∧ Again w'.tree o (s.add s.watchRoot true) := by
  have hwatch : s.sourceAt [] = s.watchRoot := Path.extend_nil _
  have hnormal : (s.sourceAt []).Normal := hs.source_normal (by simp)
  have hu := Underway.start (s := s) ht hdistinct
  have hsame : SameDue s (s.sourceAt []) w.tree w.tree :=
    sameDue_of_sameScript (.refl _ _ _) ((read_ok_iff ht hnormal).mpr hfile)
  rw [execute_add_follow, execute_bind_eq_ok] at hexec
  obtain ⟨o₁, w₁, hadd, hexec⟩ := hexec
  rw [← hwatch] at hadd
  obtain ⟨r, w₂, hadd', hadded⟩ := hu.added_file hs ht (by simp) hkeep hfile hsame
  obtain ⟨rfl, rfl⟩ := Prod.mk.inj (hadd'.symm.trans hadd)
  obtain ⟨-, -, hfills, hdistinct'⟩ := hadded.done o₁ rfl
  have hv := hfills.underway hs hu hdistinct'
  have hagain : Again w₂.tree o₁ (s.addAlone (s.sourceAt [])) :=
    hu.addAlone_again hs ht hv (by simp)
      (fun _ hf => ⟨sameDue_of_sameScript (.refl _ _ _) ((read_ok_iff ht hnormal).mpr hf),
        hfills.sameDue_root hs ht hv hown hf⟩) hfills.filled_self hadd
  rw [hwatch] at hagain
  have hfollows : Follows s w₂.tree s.watchRoot ↔ Follows s w.tree s.watchRoot := by
    have hdir {t : FileTree} (ht : t.Sound) : t.isDirectory s.watchRoot = true ↔
        s.source? t [] = some .directory := by
      rw [← hwatch, isDirectory_iff ht hnormal]
      rfl
    have hthere {t : FileTree} (ht : t.Sound) : t.isThere s.watchRoot = true ↔
        (s.source? t []).isSome := by
      rw [← hwatch, isThere_iff ht hnormal]
      rfl
    simp only [Follows, ← Bool.not_eq_true (w₂.tree.isDirectory _),
      ← Bool.not_eq_true (w.tree.isDirectory _), hdir ht, hdir hv.sound, hthere ht,
      hthere hv.sound, hv.source]
  obtain ⟨r, ms, -, hscripts⟩ := readsAlike_addScriptsOf hs hv.sound hagain
  obtain ⟨o', ns, hrepeats, hagain⟩ := hagain
  by_cases hfollow : Follows s w.tree s.watchRoot
  · rw [if_pos hfollow, show w₂ = ⟨w₂.tree, w₂.notices⟩ from rfl, execute_bind,
      (hscripts _).1] at hexec
    cases r with
    | error e => cases hexec
    | ok =>
      obtain ⟨rfl, rfl⟩ : o₁ = o ∧ ⟨w₂.tree, w₂.notices ++ ms⟩ = w' := by simpa using hexec
      refine ⟨hv, o', ns ++ ms, hrepeats, fun n => ?_⟩
      rw [execute_add_follow, execute_bind_ok (hagain n), if_pos (hfollows.mpr hfollow),
        execute_bind_ok (hscripts _).1, execute_pure, List.append_assoc]
  · rw [if_neg hfollow] at hexec
    obtain ⟨rfl, rfl⟩ : o₁ = o ∧ w₂ = w' := by simpa using hexec
    refine ⟨hv, o', ns, hrepeats, fun n => ?_⟩
    rw [execute_add_follow, execute_bind_ok (hagain n), if_neg (mt hfollows.mp hfollow)]
    rfl

theorem add_root_again (hs : s.Separate) (ht : w.tree.Sound) (hdistinct : w.tree.Distinct)
    (hnot : s.source? w.tree [] ≠ some .directory) (hown : ¬ OwnDescriptor s w.tree)
    (hexec : execute (s.add s.watchRoot true) w = (.ok o, w')) :
    Underway s w.tree w'.tree ∧ Again w'.tree o (s.add s.watchRoot true) := by
  by_cases hpassed : s.Keeps [] → s.source? w.tree [] = none
  · have hadd := add_root_passed hs ht hdistinct hpassed
    obtain ⟨ho, rfl⟩ := Prod.mk.inj ((hadd w.notices).symm.trans hexec)
    obtain rfl := Except.ok.inj ho
    exact ⟨.start ht hdistinct, (Again.pure ⟨rfl, rfl, .inr rfl⟩).congr hadd⟩
  · rw [Classical.not_imp, ← ne_eq, Option.ne_none_iff_exists'] at hpassed
    obtain ⟨hkeep, e, he⟩ := hpassed
    cases e with
    | link target => exact absurd he (ht.noLinks _ _)
    | directory => exact absurd he hnot
    | file content => exact add_root_file hs ht hdistinct hkeep he hown hexec

/-! ## The whole pass -/

theorem fullPass_again_of_other (hs : s.Separate) (ht : w.tree.Sound)
    (hdistinct : w.tree.Distinct) (hnot : s.source? w.tree [] ≠ some .directory)
    (hown : ¬ OwnDescriptor s w.tree) {report : Report}
    (hpass : execute s.fullPass w = (.ok report, w')) (hfine : ∀ o ∈ report.outcomes, Fine o) :
    ∃ report' w'', execute s.fullPass w' = (.ok report', w'') ∧ w''.tree = w'.tree ∧
      List.Forall₂ Repeats report.outcomes report'.outcomes := by
  rw [fullPass] at hpass
  obtain ⟨o, w₁, hadd, hpass⟩ := execute_bind_eq_ok.mp hpass
  rw [execute_bind, Work.execute_tree] at hpass
  obtain ⟨os, w₂, hbelow, hpass⟩ := execute_bind_eq_ok.mp hpass
  obtain ⟨rfl, rfl⟩ : ⟨o :: os⟩ = report ∧ w₂ = w' := by simpa using hpass
  obtain ⟨hv, hagain⟩ := add_root_again hs ht hdistinct hnot hown
    (add_of_addOrWarn (hfine o (by simp)) hadd)
  have hnothing (n : List Notice) : execute
      (s.addBelow (w₁.tree.entries.length + 1) s.watchRoot) ⟨w₁.tree, n⟩ =
        (.ok [], ⟨w₁.tree, n⟩) := by
    rw [show s.watchRoot = s.sourceAt [] from (Path.extend_nil _).symm]
    refine execute_addBelow_nothing hs hv.sound ?_
    rwa [hv.source]
  obtain ⟨rfl, rfl⟩ : [] = os ∧ w₁ = w₂ := by
    simpa using (hnothing w₁.notices).symm.trans hbelow
  obtain ⟨o', ns, hrepeats, hadd'⟩ := hagain.addOrWarn
  refine ⟨⟨[o']⟩, ⟨w₁.tree, w₁.notices ++ ns⟩, ?_, rfl, .cons hrepeats .nil⟩
  rw [fullPass, execute_bind_ok (hadd' w₁.notices), execute_bind, Work.execute_tree]
  simp only
  rw [execute_bind_ok (hnothing _), execute_pure]

/-- The failures of a pass, and those of another in which all is repeated. -/
theorem failures_of_repeats {os os' : List Outcome} (h : List.Forall₂ Repeats os os') :
    (Report.mk os').failures.map (fun o => (o.source, o.error)) =
      (Report.mk os).failures.map (fun o => (o.source, o.error)) := by
  simp only [Report.failures]
  induction h with
  | nil => rfl
  | cons hrepeats _ ih =>
    rw [List.filter_cons, List.filter_cons, hrepeats.error]
    split
    · rw [List.map_cons, List.map_cons, ih, hrepeats.source, hrepeats.error]
    · exact ih

/-- A pass after one that ended well writes nothing: all its outcomes say so, and the
failures that it reports are those of the first pass. -/
theorem second_pass_writes_nothing {c : Configuration} (hwatch : c.watchDir.WellSpelled)
    (houtput : c.outputDir.WellSpelled) (ht : w.tree.Sound) (hdistinct : w.tree.Distinct)
    (hs : s = Syncer.of c w.tree.current) (hin : ¬ s.outputRoot.names <+: s.watchRoot.names)
    (hout : ¬ s.watchRoot.names <+: s.outputRoot.names) (hown : ¬ OwnDescriptor s w.tree)
    {report : Report} (hpass : execute s.fullPass w = (.ok report, w'))
    (hfine : ∀ o ∈ report.outcomes, o.action = .ignored → o.error = none) :
    ∃ report' w'', execute s.fullPass w' = (.ok report', w'') ∧ w''.tree = w'.tree ∧
      (∀ o ∈ report'.outcomes, o.action = .skipped ∨ o.action = .ignored) ∧
      report'.failures.map (fun o => (o.source, o.error)) =
        report.failures.map (fun o => (o.source, o.error)) := by
  have hseparate : s.Separate := by
    subst hs
    exact separate_of ht.current hwatch houtput hin hout
  have hagain : ∃ report' w'', execute s.fullPass w' = (.ok report', w'') ∧
      w''.tree = w'.tree ∧ List.Forall₂ Repeats report.outcomes report'.outcomes := by
    by_cases hroot : s.source? w.tree [] = some .directory
    · exact fullPass_again_of_directory hseparate ht hdistinct hroot hpass hfine
    · exact fullPass_again_of_other hseparate ht hdistinct hroot hown hpass hfine
  obtain ⟨report', w'', hpass', htree, hrepeats⟩ := hagain
  refine ⟨report', w'', hpass', htree, fun o ho => ?_, failures_of_repeats hrepeats⟩
  obtain ⟨o₀, -, h⟩ := exists_left_of_mem hrepeats ho
  exact h.idle

theorem second_pass_writes_nothing_project :
    projectWorld.tree.Sound ∧ projectWorld.tree.Distinct ∧ ∃ s report w' report' w'',
      s = Syncer.of project projectWorld.tree.current ∧
      execute s.fullPass projectWorld = (.ok report, w') ∧
      s.output? w'.tree ["lib"] = some .directory ∧
      execute s.fullPass w' = (.ok report', w'') ∧ w''.tree = w'.tree ∧
      ∀ o ∈ report'.outcomes, o.action = .skipped ∨ o.action = .ignored := by
  have hext : Descriptor.PlainSuffix project.extension :=
    ⟨"scene", by decide, by decide, by decide, by decide⟩
  have hroot : (Syncer.of project projectWorld.tree.current).source? projectWorld.tree [] =
      some .directory := by decide
  obtain ⟨report, w', hpass, hfine⟩ := full_pass_succeeds (c := project) (w := projectWorld)
    (Path.wellSpelled_ofString _) (Path.wellSpelled_ofString _) hext projectWorld_sound (by decide)
    rfl (by decide) (by decide) hroot (roomy_of_empty hroot projectWorld_empty)
  have hown : ¬ OwnDescriptor (Syncer.of project projectWorld.tree.current) projectWorld.tree := by
    rintro ⟨⟨content, hfile⟩, -⟩
    cases hroot.symm.trans hfile
  obtain ⟨report', w'', hpass', hsame, hidle, -⟩ := second_pass_writes_nothing (c := project)
    (w := projectWorld) (Path.wellSpelled_ofString _) (Path.wellSpelled_ofString _)
    projectWorld_sound (by decide) rfl (by decide) (by decide) hown hpass hfine
  have hseparate := separate_of (c := project) projectWorld_sound.current
    (Path.wellSpelled_ofString _) (Path.wellSpelled_ofString _) (by decide) (by decide)
  obtain ⟨-, hfilled, -, -⟩ :=
    fullPass_run hseparate projectWorld_sound (by decide) hroot hpass hfine
  have hkeep : (Syncer.of project projectWorld.tree.current).Keeps ["lib"] := by
    rw [Keeps]
    decide
  refine ⟨projectWorld_sound, by decide, _, report, w', report', w'', rfl, hpass, ?_, hpass',
    hsame, hidle⟩
  exact hfilled _ (hkeep.listed hseparate projectWorld_sound (by decide)) _ hkeep
    (due?_directory.mpr (by decide))

/-! ## An output that is a descriptor -/

/-- A pass over a file brings its target, and that is all. -/
theorem fullPass_of_file (hs : s.Separate) (ht : w.tree.Sound) (hdistinct : w.tree.Distinct)
    (hext : Descriptor.PlainSuffix s.configuration.extension)
    (hsuffix : s.watchRoot.suffix ≠ s.configuration.extension) (hkeep : s.Keeps [])
    {content : List UInt8} (hfile : s.source? w.tree [] = some (.file content))
    (hready : w.tree.Ready s.outputRoot.names
      (.file (s.dueBytes w.tree s.watchRoot content))) :
    ∃ o w', execute s.fullPass w = (.ok ⟨[o]⟩, w') ∧ Fine o ∧ Underway s w.tree w'.tree ∧
      s.output? w'.tree [] = some (.file (s.dueBytes w.tree s.watchRoot content)) := by
  have hwatch : s.sourceAt [] = s.watchRoot := Path.extend_nil _
  have hnormal : (s.sourceAt []).Normal := hs.source_normal (by simp)
  have hu := Underway.start (s := s) ht hdistinct
  have hdue : s.due? w.tree [] = some (.file (s.dueBytes w.tree s.watchRoot content)) := by
    rw [due?, hfile, ← hwatch]
  obtain ⟨r, w₁, hadd, hadded⟩ := hu.added_file hs ht (by simp) hkeep hfile
    (sameDue_of_sameScript (.refl _ _ _) ((read_ok_iff ht hnormal).mpr hfile))
  obtain ⟨o, rfl⟩ := hadded.succeeds hext fun e _ he => by
    obtain rfl := Option.some.inj (hdue.symm.trans he)
    rwa [List.append_nil]
  obtain ⟨-, hfine, hfills, hdistinct'⟩ := hadded.done o rfl
  have hv := hfills.underway hs hu hdistinct'
  rw [hwatch] at hadd
  have hroot : execute (s.add s.watchRoot true) w = (.ok o, w₁) := by
    rw [execute_add_follow, execute_bind_ok hadd, if_neg fun h => hsuffix h.1]
    rfl
  refine ⟨o, w₁, ?_, hfine, hv, hfills.filled_self _ hkeep hdue⟩
  have hnot : s.source? w₁.tree [] ≠ some .directory := by
    rw [hv.source, hfile]
    simp
  have hnothing : execute (s.addBelow (w₁.tree.entries.length + 1) s.watchRoot) w₁ =
      (.ok [], w₁) := by
    rw [← hwatch]
    exact execute_addBelow_nothing hs hv.sound hnot
  have hwarn : execute (s.addOrWarn s.watchRoot true) w = (.ok o, w₁) := by
    rw [addOrWarn, execute_tryCatch_ok hroot]
  rw [fullPass, execute_bind_ok hwarn, execute_bind, Work.execute_tree]
  simp only
  rw [execute_bind_ok hnothing, execute_pure]

/-- The output is where the descriptor of the only script is looked for. -/
def ownDescriptor : Configuration where
  watchDir := .ofString "/w.js"
  outputDir := .ofString "/w.foo"
  conversionDir := some (.ofString "/")
  exclude := []
  context := "scene"
  sceneType := "Phaser.Scene"
  extension := ".foo"
  maxDepth := 100

def ownDescriptorWorld : World where
  tree := ⟨.ofString "/", [(["w.js"], .file (Text.encode Script.heroScript.source))]⟩
  notices := []

theorem ownDescriptorWorld_sound : ownDescriptorWorld.tree.Sound := by
  refine sound_of_entries (by decide) fun x hx => ?_
  simp only [ownDescriptorWorld, List.mem_cons, List.not_mem_nil, or_false] at hx
  subst hx
  exact ⟨by simp, by decide, by decide⟩

/-- What stands at a location of one name. -/
theorem ready_of_single {n : String} {b : List UInt8} (h : ∀ e, t.get? [n] = some e →
    SameKind e (.file b)) : t.Ready [n] (.file b) := by
  refine ⟨fun m hm hne => .inr ?_, h⟩
  rcases List.prefix_cons_iff.mp hm with rfl | ⟨k, rfl, hk⟩
  · rfl
  · exact absurd (by rw [List.prefix_nil.mp hk]) hne

/-- The rewritten script is no descriptor. -/
theorem hero_no_descriptor : ∃ e, Descriptor.read 100
    (Text.unifyLineEnds "export function create(scene, key) { new Hero(scene); }".toList) =
      .error e := by
  have hfails : (Descriptor.read 100 (Text.unifyLineEnds
      "export function create(scene, key) { new Hero(scene); }".toList)).isOk = false := by
    decide +kernel
  generalize Descriptor.read 100 (Text.unifyLineEnds
    "export function create(scene, key) { new Hero(scene); }".toList) = r at hfails
  cases r with
  | error e => exact ⟨e, rfl⟩
  | ok items => cases hfails

/-- With the rewritten script for a descriptor the script of the example is not converted. -/
theorem not_rewrittenTo_hero {p d : Path} (ht : t.Sound) (hnormal : d.Normal)
    (heligible : s.configuration.scriptOptions.isEligible t.current p = true)
    (hdialect : Script.Dialect.ofPath? p = some .plain)
    (hoptions : s.configuration.scriptOptions.conversionOptions = .usual)
    (hdepth : s.configuration.maxDepth = 100)
    (hd : Descriptor.pathOf p s.configuration.extension = .ok d)
    (h : t.get? d.names = some (.file
      (Text.encode "export function create(scene, key) { new Hero(scene); }".toList)))
    (text : List Char) : ¬ RewrittenTo s t p (Text.encode Script.heroScript.source) text := by
  have hisfile := (isFile_iff ht hnormal).mpr ⟨_, h⟩
  have hread := (read_ok_iff ht hnormal).mpr h
  have hdecode : Text.decodeMarked (Text.encode
      "export function create(scene, key) { new Hero(scene); }".toList) =
        .ok "export function create(scene, key) { new Hero(scene); }".toList := by
    decide +kernel
  have hd' : Descriptor.pathOf p s.configuration.scriptOptions.extension = .ok d := hd
  have hdepth' : s.configuration.scriptOptions.maxDepth = 100 := hdepth
  obtain ⟨e, he⟩ := hero_no_descriptor
  have hfails : execute (Transform.descriptorFields p s.configuration.scriptOptions.extension
      s.configuration.scriptOptions.maxDepth) ⟨t, []⟩ =
        (.error (.descriptor ⟨some d, e⟩), ⟨t, []⟩) := by
    rw [Transform.descriptorFields, hd', hdepth', execute_bind, Work.execute_ofExcept_ok]
    simp only [execute_bind, Work.execute_tree, hisfile, Work.readMarkedText, execute_readBytes,
      hread, hdecode, he, Except.mapError, Bool.not_true, Bool.false_eq_true, ↓reduceIte,
      Work.execute_ofExcept_ok, Work.execute_ofExcept_error, execute_pure]
  rintro ⟨-, cs, r, v, hcs, hrun, -⟩
  obtain rfl : Script.heroScript.source = cs :=
    Except.ok.inj ((Text.decode_encode _).symm.trans hcs)
  have hresult := execute_run_hero (w := ⟨t, []⟩) heligible hdialect hoptions hfails
  rw [heroScript_lines] at hrun
  rw [hrun] at hresult
  cases hresult

/-- The first pass writes the rewritten script where its descriptor is looked for, so the
second cannot read it and copies the script. -/
theorem second_pass_writes_own_descriptor :
    ∃ s report w' report' w'', s = Syncer.of ownDescriptor ownDescriptorWorld.tree.current ∧
      ¬ s.outputRoot.names <+: s.watchRoot.names ∧ ¬ s.watchRoot.names <+: s.outputRoot.names ∧
      ownDescriptorWorld.tree.Sound ∧ ownDescriptorWorld.tree.Distinct ∧
      execute s.fullPass ownDescriptorWorld = (.ok report, w') ∧
      (∀ o ∈ report.outcomes, o.action = .ignored → o.error = none) ∧
      execute s.fullPass w' = (.ok report', w'') ∧ w''.tree ≠ w'.tree := by
  let s := Syncer.of ownDescriptor ownDescriptorWorld.tree.current
  let source := Text.encode Script.heroScript.source
  let rewritten := Text.encode "export function create(scene, key) { new Hero(scene); }".toList
  have hin : ¬ s.outputRoot.names <+: s.watchRoot.names := by decide
  have hout : ¬ s.watchRoot.names <+: s.outputRoot.names := by decide
  have hs : s.Separate := separate_of ownDescriptorWorld_sound.current
    (Path.wellSpelled_ofString _) (Path.wellSpelled_ofString _) hin hout
  have hext : Descriptor.PlainSuffix s.configuration.extension :=
    ⟨"foo", by decide, by decide, by decide, by decide⟩
  have hkeep : s.Keeps [] := by
    rw [Keeps]
    decide
  have hdescriptor : Descriptor.pathOf s.watchRoot s.configuration.extension =
      .ok s.outputRoot := by decide
  have heligible {cwd : Path} (hcwd : cwd = ownDescriptorWorld.tree.current) :
      s.configuration.scriptOptions.isEligible cwd s.watchRoot = true := by
    subst hcwd
    decide
  have hfile : s.source? ownDescriptorWorld.tree [] = some (.file source) := by decide
  have hnone : ownDescriptorWorld.tree.get? s.outputRoot.names = none := by decide
  have hread := (read_ok_iff ownDescriptorWorld_sound hs.watch).mpr hfile
  -- The first pass finds no descriptor.
  have hnodescriptor : ownDescriptorWorld.tree.isFile s.outputRoot = false := by
    rw [← Bool.not_eq_true, isFile_iff ownDescriptorWorld_sound hs.output, hnone]
    simp
  have hdue : s.dueBytes ownDescriptorWorld.tree s.watchRoot source = rewritten :=
    dueBytes_of_rewritten hread (rewrittenTo_hero (heligible rfl) (by decide) rfl hdescriptor
      hnodescriptor)
  obtain ⟨o, w', hpass, hfine, hv, hwritten⟩ := fullPass_of_file hs ownDescriptorWorld_sound
    (by decide) hext (by decide) hkeep hfile
    (ready_of_single fun e he => by cases hnone.symm.trans he)
  rw [hdue, output?, List.append_nil] at hwritten
  -- The second finds what the first has written.
  have hfile' : s.source? w'.tree [] = some (.file source) := (hv.source []).trans hfile
  have hread' : w'.tree.read s.watchRoot = .ok source := (read_ok_iff hv.sound hs.watch).mpr hfile'
  have hdue' : s.dueBytes w'.tree s.watchRoot source = source :=
    dueBytes_of_not_rewritten hread' (not_rewrittenTo_hero hv.sound hs.output
      (heligible hv.current) (by decide) rfl rfl hdescriptor hwritten)
  obtain ⟨o', w'', hpass', -, -, hwritten'⟩ := fullPass_of_file hs hv.sound hv.distinct hext
    (by decide) hkeep hfile' (ready_of_single fun e he => by
      obtain rfl := Option.some.inj (hwritten.symm.trans he)
      trivial)
  rw [hdue', output?, List.append_nil] at hwritten'
  refine ⟨s, _, w', _, w'', rfl, hin, hout, ownDescriptorWorld_sound, by decide, hpass, ?_, hpass',
    fun hsame => ?_⟩
  · intro o₁ ho₁
    rw [List.mem_singleton.mp ho₁]
    exact hfine
  · rw [hsame, hwritten] at hwritten'
    revert hwritten'
    decide +kernel

end SceneSync.Syncer
