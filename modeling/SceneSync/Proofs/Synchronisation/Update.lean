import Mathlib
import SceneSync.Proofs.FileTree.Change
import SceneSync.Synchronisation

/-!
# Updating a target

A target is brought to given bytes. Nothing else changes but the directories on the
way to it, and an update that ends well leaves the bytes there.
-/

namespace SceneSync.Syncer

open FileTree

variable {target : Path} {b : List UInt8} {w : World}

/-- The bytes of a file are read, or the fault is that of the path. -/
theorem execute_readBytes (p : Path) (w : World) :
    execute (Work.readBytes p) w = ((w.tree.read p).mapError Failure.file, w) := by
  rw [Work.readBytes, execute_bind, Work.execute_tree]
  simp only
  cases w.tree.read p <;> rfl

theorem execute_update_same (ht : w.tree.Sound) (hp : target.Normal)
    (h : w.tree.get? target.names = some (.file b)) : execute (update target b) w = (.ok false, w) := by
  have hfile : w.tree.isFile target = true := (isFile_iff ht hp).mpr ⟨b, h⟩
  have hread : w.tree.read target = .ok b := (read_ok_iff ht hp).mpr h
  rw [update, execute_bind, Work.execute_tree]
  simp [hfile, execute_bind, execute_readBytes, hread, Except.mapError]

theorem execute_update_new (ht : w.tree.Sound) (hp : target.Normal)
    (h : w.tree.get? target.names ≠ some (.file b)) : execute (update target b) w =
      execute (do
        Work.change do
          FileTree.ensureDirectories target.parent
          FileTree.write target b
        return true) w := by
  rw [update, execute_bind, Work.execute_tree]
  simp only
  by_cases hfile : w.tree.isFile target = true
  · obtain ⟨b', hb'⟩ := (isFile_iff ht hp).mp hfile
    have hread : w.tree.read target = .ok b' := (read_ok_iff ht hp).mpr hb'
    have hne : (b' == b) = false := by
      rw [beq_eq_false_iff_ne]
      rintro rfl
      exact h hb'
    rw [if_pos hfile, execute_bind, execute_readBytes, hread]
    simp [Except.mapError, hne]
  · rw [if_neg hfile]

/-- Writing a file where its directories may be missing. -/
theorem execute_plantFile {t : FileTree} (ht : t.Sound) (hp : target.Normal)
    (hne : target.names ≠ []) (b : List UInt8) :
    ∃ r t', execute (do FileTree.ensureDirectories target.parent; FileTree.write target b) t =
        (r, t') ∧
      Brings target.names (.file b) t t' ∧
      (r = .ok () → t'.get? target.names = some (.file b)) ∧
      (t.Ready target.names (.file b) → r = .ok ()) := by
  obtain ⟨l, n, hl⟩ := List.eq_nil_or_concat target.names |>.resolve_left hne
  rw [List.concat_eq_append] at hl
  have hparentNames : target.parent.names = l := by simp [Path.parent, hl]
  have hvalid : ∀ k ∈ l ++ [n], Path.ValidName k := hl ▸ hp.names
  have hparent : target.parent.Normal :=
    ⟨hp.absolute, fun k hk => hvalid k (by rw [hparentNames] at hk; simp [hk])⟩
  obtain ⟨r, t₁, hens, hopens, hdone, hclear⟩ := execute_ensureDirectories ht hparent
  rw [hparentNames] at hopens hdone hclear
  rw [hl]
  have hprefix : l <+: l ++ [n] := List.prefix_append l [n]
  have hlast : ¬ l ++ [n] <+: l := fun h => by simpa using h.length_le
  have hready (h : t.Ready (l ++ [n]) (.file b)) : t.Clear l :=
    fun m hm => h.1 m (hm.trans hprefix) (by rintro rfl; exact hlast hm)
  have hsame : t₁.get? (l ++ [n]) = t.get? (l ++ [n]) := hopens.elsewhere _ hlast
  have hskip {t' : FileTree} (h : Brings (l ++ [n]) (.file b) t₁ t') :
      Brings (l ++ [n]) (.file b) t t' := hopens.trans_brings hprefix (by simp) h
  cases r with
  | error e =>
    refine ⟨.error e, t₁, execute_bind_error hens, hskip (.refl hopens.sound _ _), by simp, ?_⟩
    intro h
    cases hclear (hready h)
  | ok =>
    rw [execute_bind_ok hens]
    by_cases hwrite : t₁.Leads (l ++ [n]) ∧ t₁.get? (l ++ [n]) ≠ some .directory
    · rw [execute_write hopens.sound hp b (hl ▸ hwrite.1) (hl ▸ hwrite.2), hl]
      refine ⟨_, _, rfl, hskip ?_, fun _ => ?_, fun _ => rfl⟩
      · exact .put hopens.sound b (leads_append.mp hwrite.1).2 (hvalid n (by simp)) hwrite.2
      · rw [get?_put _ (by simp), if_pos rfl]
    · obtain ⟨f, hf⟩ := execute_write_fails hopens.sound hp b (hl ▸ hwrite)
      refine ⟨_, _, hf, hskip (.refl hopens.sound _ _), by simp, fun h => ?_⟩
      refine absurd ⟨hopens.leads (hdone rfl), fun hdir => ?_⟩ hwrite
      rw [hsame] at hdir
      exact (h.2 _ hdir).elim

/-- An update does not go beyond its target, and it cannot fail when nothing stands in
the way. -/
theorem execute_update (ht : w.tree.Sound) (hp : target.Normal) (hne : target.names ≠ [])
    (b : List UInt8) :
    ∃ r t', execute (update target b) w = (r, { w with tree := t' }) ∧
      Brings target.names (.file b) w.tree t' ∧
      (∀ x, r = .ok x → t'.get? target.names = some (.file b)) ∧
      (∀ f, r = .error f → f.isFile) ∧
      (w.tree.Ready target.names (.file b) → ∃ x, r = .ok x) := by
  by_cases hsame : w.tree.get? target.names = some (.file b)
  · exact ⟨_, _, execute_update_same ht hp hsame, .refl ht _ _, fun _ _ => hsame, by simp,
      fun _ => ⟨_, rfl⟩⟩
  · obtain ⟨r, t', hchange, hbrings, hdone, hready⟩ := execute_plantFile ht hp hne b
    rw [execute_update_new ht hp hsame, execute_bind, Work.execute_change hchange]
    cases r with
    | error e =>
      refine ⟨_, _, rfl, hbrings, by simp, fun f hf => ?_, fun h => ?_⟩
      · rw [← Except.error.inj hf]
        rfl
      · cases hready h
    | ok => exact ⟨_, _, rfl, hbrings, fun _ _ => hdone rfl, by simp, fun _ => ⟨_, rfl⟩⟩

/-- The top of the tree is no file. -/
theorem execute_update_top (ht : w.tree.Sound) (hp : target.Normal) (htop : target.names = []) :
    ∃ f w', execute (update target b) w = (.error f, w') := by
  have htopDir : w.tree.get? target.names ≠ some (.file b) := by
    rw [htop]
    simp [get?]
  obtain ⟨e, t', hchange⟩ : ∃ e t', execute (do
      FileTree.ensureDirectories target.parent
      FileTree.write target b) w.tree = (.error e, t') := by
    have hparent : target.parent.Normal := ⟨hp.absolute, by simp [Path.parent, htop]⟩
    obtain ⟨r, t₁, hens, hopens, -⟩ := execute_ensureDirectories ht hparent
    cases r with
    | error e => exact ⟨e, t₁, execute_bind_error hens⟩
    | ok =>
      obtain ⟨f, hf⟩ := execute_write_fails hopens.sound hp b fun h => h.2 (by rw [htop]; rfl)
      exact ⟨_, _, (execute_bind_ok hens).trans hf⟩
  exact ⟨.file e, _, by
    rw [execute_update_new ht hp htopDir, execute_bind, Work.execute_change hchange]; rfl⟩

/-- An update that has ended well. It wrote exactly if the bytes were not there before. -/
theorem update_run (ht : w.tree.Sound) (hp : target.Normal) {w' : World} {written : Bool}
    (h : execute (update target b) w = (.ok written, w')) :
    Brings target.names (.file b) w.tree w'.tree ∧ w'.tree.get? target.names = some (.file b) ∧
      (written = true ↔ w.tree.get? target.names ≠ some (.file b)) ∧
      (written = false → w'.tree = w.tree) := by
  by_cases hsame : w.tree.get? target.names = some (.file b)
  · rw [execute_update_same ht hp hsame, Prod.mk.injEq, Except.ok.injEq] at h
    obtain ⟨rfl, rfl⟩ := h
    exact ⟨.refl ht _ _, hsame, by simp [hsame], fun _ => rfl⟩
  · by_cases htop : target.names = []
    · obtain ⟨f, w₁, hf⟩ := execute_update_top (b := b) ht hp htop
      cases hf.symm.trans h
    · obtain ⟨r, t', hrun, hbrings, hdone, -⟩ := execute_update ht hp htop b
      obtain ⟨rfl, rfl⟩ := Prod.mk.inj (hrun.symm.trans h)
      have hwritten : written = true := by
        rw [execute_update_new ht hp hsame, execute_bind_eq_ok] at h
        obtain ⟨-, w₁, -, hdone⟩ := h
        exact (Except.ok.inj (Prod.mk.inj hdone).1).symm
      exact ⟨hbrings, hdone _ rfl, by simp [hwritten, hsame], by simp [hwritten]⟩

/-! ## Removing a target -/

variable {s : Syncer} {source : Path}

theorem execute_target (s : Syncer) (source : Path) (w : World) :
    execute (s.target source) w = (s.outputPath (Path.absolute w.tree.current source), w) := by
  rw [Syncer.target, execute_bind, Work.execute_absolute]
  simp only
  cases s.outputPath (Path.absolute w.tree.current source) <;> rfl

theorem execute_target_ok
    (h : s.outputPath (Path.absolute w.tree.current source) = .ok target) :
    execute (s.target source) w = (.ok target, w) := by
  rw [execute_target, h]

/-- Removing a path takes its target away with all that is in it, if there is one. Only
then the scripts of a descriptor follow. -/
theorem execute_remove_target (ht : w.tree.Sound) (htarget : target.Normal)
    (hkeep : s.excludes source.toString = false)
    (h : s.outputPath (Path.absolute w.tree.current source) = .ok target) :
    execute (s.remove source) w =
      if (w.tree.get? target.names).isSome then
        execute (do
          Work.notify (.log .info logName ("Removed " ++ target.toString))
          if source.suffix == s.configuration.extension then s.addScriptsOf source
          return ⟨source, .removed, some target, none⟩)
            { w with tree := w.tree.erase target.names }
      else (.ok ⟨source, .ignored, some target, none⟩, w) := by
  rw [remove, if_neg (by simp [hkeep]), execute_bind_ok (execute_target_ok h)]
  simp only [execute_bind (x := Work.tree), Work.execute_tree, isLink_eq_false ht target,
    Bool.not_false, Bool.and_true, Bool.or_false]
  cases hg : w.tree.get? target.names with
  | none =>
    have hdir : w.tree.isDirectory target = false := by
      rw [← Bool.not_eq_true, isDirectory_iff ht htarget, hg]
      simp
    have hthere : w.tree.isThere target = false := by
      rw [← Bool.not_eq_true, isThere_iff ht htarget, hg]
      simp
    rw [hdir, hthere]
    rfl
  | some e =>
    rw [if_pos Option.isSome_some]
    by_cases he : e = .directory
    · subst he
      have hdir := (isDirectory_iff ht htarget).mpr hg
      have hremove := execute_removeAll ht htarget hg
      rw [hdir, if_pos rfl, execute_bind, Work.execute_change hremove]
      rfl
    · have hdir : w.tree.isDirectory target = false := by
        rw [← Bool.not_eq_true, isDirectory_iff ht htarget, hg]
        simpa using he
      have hthere : w.tree.isThere target = true := by
        rw [isThere_iff ht htarget, hg]
        rfl
      have hremove := FileTree.execute_remove ht htarget hg he
      rw [hdir, hthere, if_neg Bool.false_ne_true, if_pos rfl, execute_bind,
        Work.execute_change hremove]
      rfl

/-! ## The scripts of a descriptor -/

/-- One turn of the loop over the scripts of a descriptor. -/
def addScriptOf (s : Syncer) (descriptor : Path) (extension : String) : Work Unit := do
  let script ← Work.ofExcept .naming (descriptor.withSuffix extension)
  if (← Work.tree).isFile script then
    let _ ← s.addAlone script

theorem addScriptsOf_eq (s : Syncer) (descriptor : Path) :
    s.addScriptsOf descriptor = forM Descriptor.scriptSuffixes (s.addScriptOf descriptor) := by
  have hturn (extension : String) : (do
      let script ← Work.ofExcept .naming (descriptor.withSuffix extension)
      if (← Work.tree).isFile script then
        let _ ← s.addAlone script
        pure (ForInStep.yield PUnit.unit)
      else pure (ForInStep.yield PUnit.unit)) =
      (do s.addScriptOf descriptor extension; pure (ForInStep.yield PUnit.unit) : Work _) := by
    simp only [addScriptOf, bind_assoc]
    congr! 6
    split <;> simp
  have hloop (exts : List String) : (do
      for extension in exts do
        let script ← Work.ofExcept .naming (descriptor.withSuffix extension)
        if (← Work.tree).isFile script then
          let _ ← s.addAlone script : Work Unit) = forM exts (s.addScriptOf descriptor) := by
    induction exts with
    | nil => rfl
    | cons e exts ih =>
      simp only [hturn] at ih ⊢
      simp only [List.forIn_cons, bind_assoc, pure_bind] at ih ⊢
      rw [ih]
      rfl
  exact hloop _

end SceneSync.Syncer
