import Mathlib
import SceneSync.Proofs.Path.NormalForm
import SceneSync.Proofs.Synchronisation.DescriptorEvent

/-!
# Targets

The target of a path depends on its normal form alone. The normal form lies in the watched
directory or the path has no target, and what lies in the watched directory lies in the
same way in the output directory.
-/

namespace SceneSync

namespace Path

/-- `q` is `p` or lies below it, name by name. -/
def Holds (p q : Path) : Prop := ∃ ns, q = p.extend ns

/-- `q` lies below `p`. -/
def Above (p q : Path) : Prop := ∃ ns, ns ≠ [] ∧ q = p.extend ns

variable {base p q : Path} {ns : List String}

theorem below?_eq_some_iff : base.below? p = some ns ↔ p = base.extend ns := by
  constructor
  · intro h
    rw [below?] at h
    split at h
    · rename_i hcond
      simp only [Bool.and_eq_true, beq_iff_eq, List.isPrefixOf_iff_prefix] at hcond
      obtain ⟨hanchor, rest, hrest⟩ := hcond
      obtain rfl : rest = ns := by simpa [← hrest] using h
      rw [extend, hanchor, hrest]
    · cases h
  · rintro rfl
    exact below?_extend base ns

theorem below?_eq_none_iff : base.below? p = none ↔ ¬ base.Holds p := by
  rw [← not_iff_not, not_not, Holds]
  simp only [← below?_eq_some_iff, ← Option.isSome_iff_exists, Option.isSome_iff_ne_none]

theorem extend_extend (p : Path) (ns ms : List String) :
    (p.extend ns).extend ms = p.extend (ns ++ ms) := by simp [extend]

theorem extend_inj {ms : List String} : p.extend ns = p.extend ms ↔ ns = ms := by simp [extend]

/-- One directory after another in front of names changes nothing among them. -/
theorem above_extend_iff {ms : List String} :
    (p.extend ns).Above (p.extend ms) ↔ ∃ ls, ls ≠ [] ∧ ms = ns ++ ls := by
  simp only [Above, extend_extend, extend_inj]

end Path

namespace Syncer

variable {s : Syncer} {source target : Path} {w w' : World}

theorem outputPath_eq_ok_iff {p : Path} : s.outputPath p = .ok target ↔
    ∃ names, p = s.watchRoot.extend names ∧ target = s.outputRoot.extend names := by
  rw [outputPath]
  constructor
  · intro h
    split at h
    · rename_i names hnames
      exact ⟨names, Path.below?_eq_some_iff.mp hnames, (Except.ok.inj h).symm⟩
    · cases h
  · rintro ⟨names, hp, rfl⟩
    rw [Path.below?_eq_some_iff.mpr hp]
    rfl

theorem outputPath_outside {p : Path} (h : ¬ s.watchRoot.Holds p) :
    s.outputPath p = .error (.outside p s.watchRoot) := by
  rw [outputPath, Path.below?_eq_none_iff.mpr h]

/-- The target of a path is told by its normal form: it is refused exactly if it does not
lie in the watched directory, and otherwise its target lies in the output directory. Two
targets are one exactly if the paths are, and one lies above the other exactly if the paths
do. -/
theorem target_confined_embedding (c : Configuration) (w : World)
    (hcwd : w.tree.current.WellSpelled) {watch output : String}
    (hwatch : c.watchDir = .ofString watch) (houtput : c.outputDir = .ofString output) :
    (∀ text, ∃! p, Path.NormalForm w.tree.current text p) ∧
    ∀ base goal, Path.NormalForm w.tree.current watch base →
      Path.NormalForm w.tree.current output goal →
      (∀ text p, Path.NormalForm w.tree.current text p →
        (¬ base.Holds p →
          execute ((of c w.tree.current).target (.ofString text)) w =
            (.error (.outside p base), w)) ∧
        (base.Holds p → ∃ t, execute ((of c w.tree.current).target (.ofString text)) w =
          (.ok t, w) ∧ goal.Holds t ∧ ".." ∉ t.names)) ∧
      ∀ text text' p q t u, Path.NormalForm w.tree.current text p →
        Path.NormalForm w.tree.current text' q →
        execute ((of c w.tree.current).target (.ofString text)) w = (.ok t, w) →
        execute ((of c w.tree.current).target (.ofString text')) w = (.ok u, w) →
        (t = u ↔ p = q) ∧ (p.Above q ↔ t.Above u) := by
  have hform {text : String} {p : Path} := Path.normalForm_iff (p := p) hcwd text
  refine ⟨fun text => ⟨_, hform.mpr rfl, fun p hp => hform.mp hp⟩, ?_⟩
  intro base goal hbase hgoal
  have hwatchRoot : (of c w.tree.current).watchRoot = base := by
    rw [of, hwatch, hform.mp hbase]
  have houtputRoot : (of c w.tree.current).outputRoot = goal := by
    rw [of, houtput, hform.mp hgoal]
  constructor
  · intro text p hp
    rw [execute_target, ← hform.mp hp, ← hwatchRoot, ← houtputRoot]
    refine ⟨fun houtside => by rw [outputPath_outside houtside], ?_⟩
    rintro ⟨names, hnames⟩
    refine ⟨_, by rw [outputPath_eq_ok_iff.mpr ⟨names, hnames, rfl⟩], ⟨names, rfl⟩, fun hup => ?_⟩
    rcases List.mem_append.mp hup with hup | hup
    · exact (hgoal.short ".." (houtputRoot ▸ hup)).2.2 rfl
    · refine (hp.short ".." ?_).2.2 rfl
      rw [hnames]
      exact List.mem_append_right _ hup
  · intro text text' p q t u hp hq ht hu
    rw [execute_target, ← hform.mp hp, Prod.mk.injEq] at ht
    rw [execute_target, ← hform.mp hq, Prod.mk.injEq] at hu
    obtain ⟨ns, rfl, rfl⟩ := outputPath_eq_ok_iff.mp ht.1
    obtain ⟨ms, rfl, rfl⟩ := outputPath_eq_ok_iff.mp hu.1
    rw [Path.extend_inj, Path.extend_inj, Path.above_extend_iff, Path.above_extend_iff]
    exact ⟨Iff.rfl, Iff.rfl⟩

/-- An editor directory beside its output, both told from the directory above them. -/
def beside : Configuration :=
  { scenes [] with watchDir := .ofString "./editor//", outputDir := .ofString "public/../game" }

def homeWorld : World := ⟨⟨.ofString "/home", []⟩, []⟩

/-- A name that begins like that of the watched directory is not in it. -/
theorem target_confined_embedding_home :
    execute ((of beside homeWorld.tree.current).target (.ofString "editor/a/../Level.ts"))
      homeWorld = (.ok (.ofString "/home/game/Level.ts"), homeWorld) ∧
    execute ((of beside homeWorld.tree.current).target (.ofString "editor-old/Level.ts"))
      homeWorld = (.error (.outside (.ofString "/home/editor-old/Level.ts")
        (.ofString "/home/editor")), homeWorld) ∧
    (Path.ofString "/home/game").Above (.ofString "/home/game/Level.ts") := by
  have hcwd : homeWorld.tree.current.WellSpelled := Path.wellSpelled_ofString _
  have hform {text : String} {p : Path} := Path.normalForm_iff (p := p) hcwd text
  obtain ⟨-, htargets⟩ := target_confined_embedding beside homeWorld hcwd rfl rfl
  obtain ⟨hconfined, hembedded⟩ := htargets (.ofString "/home/editor") (.ofString "/home/game")
    (hform.mpr (by decide)) (hform.mpr (by decide))
  have houtside := (hconfined "editor-old/Level.ts" (.ofString "/home/editor-old/Level.ts")
    (hform.mpr (by decide))).1 (Path.below?_eq_none_iff.mp (by decide))
  have hlevel : execute ((of beside homeWorld.tree.current).target
      (.ofString "editor/a/../Level.ts")) homeWorld =
        (.ok (.ofString "/home/game/Level.ts"), homeWorld) := by
    rw [execute_target]
    exact congrArg (·, homeWorld) (outputPath_eq_ok_iff.mpr ⟨["Level.ts"], by decide, by decide⟩)
  have hroot : execute ((of beside homeWorld.tree.current).target (.ofString "editor"))
      homeWorld = (.ok (.ofString "/home/game"), homeWorld) := by
    rw [execute_target]
    exact congrArg (·, homeWorld) (outputPath_eq_ok_iff.mpr ⟨[], by decide, by decide⟩)
  obtain ⟨-, habove⟩ := hembedded "editor" "editor/a/../Level.ts" (.ofString "/home/editor")
    (.ofString "/home/editor/Level.ts") _ _ (hform.mpr (by decide)) (hform.mpr (by decide))
    hroot hlevel
  exact ⟨hlevel, houtside, habove.mp ⟨["Level.ts"], by decide, by decide⟩⟩

end Syncer

end SceneSync
