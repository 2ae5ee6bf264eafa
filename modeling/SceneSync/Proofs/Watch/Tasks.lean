import Mathlib
import SceneSync.Proofs.Synchronisation.Mirror

/-!
# Tasks

An event asks for additions and removals of paths, and handling it performs them in
order, whatever has become of the files since.
-/

namespace SceneSync.Watcher

open Syncer

inductive Task where
  | add (names : List String)
  | remove (names : List String)

/-- A path strictly below the watched directory. -/
def Below (p : List String) : Prop := p ≠ [] ∧ ∀ n ∈ p, Path.ValidName n

/-- What an event about paths below the watched directory asks for. -/
inductive Asks (s : Syncer) : Event → List Task → Prop
  | created {p : List String} : Below p → Asks s (.created (s.sourceAt p).toString) [.add p]
  | modified {p : List String} : Below p → Asks s (.modified (s.sourceAt p).toString false) [.add p]
  | deleted {p : List String} : Below p → Asks s (.deleted (s.sourceAt p).toString) [.remove p]
  | moved {p q : List String} : Below p → Below q →
      Asks s (.moved (s.sourceAt p).toString (s.sourceAt q).toString) [.remove p, .add q]

/-- A task done, with the additions that follow from it. -/
inductive Does (s : Syncer) : Task → FileTree → FileTree → Prop
  | add {p : List String} {t t₁ t' : FileTree} : Adds s p t t₁ → AddsMany s t₁ t' →
      Does s (.add p) t t'
  | remove {p : List String} {t t₁ t' : FileTree} : Removes s p t t₁ → AddsMany s t₁ t' →
      Does s (.remove p) t t'

/-- Tasks done one after the other. -/
inductive DoesAll (s : Syncer) : List Task → FileTree → FileTree → Prop
  | nil (t : FileTree) : DoesAll s [] t t
  | cons {k : Task} {ks : List Task} {t t₁ t' : FileTree} : Does s k t t₁ → DoesAll s ks t₁ t' →
      DoesAll s (k :: ks) t t'

variable {s : Syncer} {t t' : FileTree} {w w' : World} {p q : List String}

theorem Does.sound {k : Task} (h : Does s k t t') (ht : t.Sound) : t'.Sound := by
  cases h with
  | add hadds hmany => exact hmany.sound (hadds.sound ht)
  | remove hremoves hmany => exact hmany.sound hremoves.sound

/-- A report adds notices to what its operation does, and passes on no fault of a file. -/
theorem execute_report {path : String} (operation : Path → Work Outcome)
    {r : Except Failure Outcome}
    (h : execute (operation (Path.ofString path)) w = (r, w'))
    (hr : ∀ f, r = .error f → f.isFile) :
    ∃ notices, execute (report path operation) w = (.ok (), ⟨w'.tree, notices⟩) := by
  have hcontent {f : Failure} (hf : f.isFile) : f.isContent = false := by
    cases f <;> simp_all [Failure.isFile, Failure.isContent]
  rw [report]
  cases r with
  | error f =>
    have hattempt : execute (tryCatch (do return .ok (← operation (Path.ofString path)))
        (fun e => if e.isContent then throw e else return .error e) :
          Work (Except Failure Outcome)) w = (.ok (.error f), w') := by
      rw [execute_tryCatch, execute_bind, h]
      simp [hcontent (hr f rfl)]
    rw [execute_bind_ok hattempt]
    exact ⟨_, rfl⟩
  | ok o =>
    have hattempt : execute (tryCatch (do return .ok (← operation (Path.ofString path)))
        (fun e => if e.isContent then throw e else return .error e) :
          Work (Except Failure Outcome)) w = (.ok (.ok o), w') := by
      rw [execute_tryCatch, execute_bind, h]
      rfl
    rw [execute_bind_ok hattempt]
    simp only
    split
    · exact ⟨_, rfl⟩
    · exact ⟨_, rfl⟩

theorem execute_reportAdd (hs : s.PureMirror) (ht : w.tree.Sound) (hp : Below p) :
    ∃ w', execute (report (s.sourceAt p).toString (s.add · true)) w = (.ok (), w') ∧
      Does s (.add p) w.tree w'.tree := by
  obtain ⟨r, t₁, t', hadd, hadds, hmany, herror⟩ := execute_add hs ht hp.2 (.inl hp.1) true
  rw [← Path.ofString_toString (hs.source_normal hp.2)] at hadd
  obtain ⟨notices, hreport⟩ := execute_report (s.add · true) hadd herror
  exact ⟨_, hreport, .add hadds hmany⟩

theorem execute_reportRemove (hs : s.PureMirror) (ht : w.tree.Sound) (hp : Below p) :
    ∃ w', execute (report (s.sourceAt p).toString s.remove) w = (.ok (), w') ∧
      Does s (.remove p) w.tree w'.tree := by
  obtain ⟨r, t₁, w₁, hremove, hremoves, hmany, herror⟩ := execute_remove hs ht hp.2 hp.1
  rw [← Path.ofString_toString (hs.source_normal hp.2)] at hremove
  obtain ⟨notices, hreport⟩ := execute_report s.remove hremove herror
  exact ⟨_, hreport, .remove hremoves hmany⟩

/-- Handling an event does what it asks for. -/
theorem execute_handle (hs : s.PureMirror) (ht : w.tree.Sound) (watching : Bool) {e : Event}
    {tasks : List Task} (he : Asks s e tasks) :
    ∃ w', execute (handle ⟨s, watching⟩ e) w = (.ok (), w') ∧ DoesAll s tasks w.tree w'.tree := by
  cases he with
  | created hp =>
    obtain ⟨w', hadd, hdoes⟩ := execute_reportAdd hs ht hp
    exact ⟨w', hadd, .cons hdoes (.nil _)⟩
  | modified hp =>
    obtain ⟨w', hadd, hdoes⟩ := execute_reportAdd hs ht hp
    exact ⟨w', hadd, .cons hdoes (.nil _)⟩
  | deleted hp =>
    obtain ⟨w', hremove, hdoes⟩ := execute_reportRemove hs ht hp
    exact ⟨w', hremove, .cons hdoes (.nil _)⟩
  | moved hp hq =>
    obtain ⟨w₁, hremove, hdoes⟩ := execute_reportRemove hs ht hp
    obtain ⟨w', hadd, hdoes'⟩ := execute_reportAdd hs (hdoes.sound ht) hq
    refine ⟨w', ?_, .cons hdoes (.cons hdoes' (.nil _))⟩
    rw [handle, execute_bind_ok hremove, hadd]

end SceneSync.Watcher
