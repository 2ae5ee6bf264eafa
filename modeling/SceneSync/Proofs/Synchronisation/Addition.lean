import Mathlib
import SceneSync.Proofs.Synchronisation.FullPass
import SceneSync.Proofs.Synchronisation.Target

/-!
# One addition

What the outcome of one added path says has happened, and nothing happened beside it:
only the target changes, and the directories on the way to it that were missing.
-/

namespace SceneSync.Syncer

open FileTree

variable {s : Syncer} {source target : Path} {w w' : World} {o : Outcome}

/-- Nothing follows an addition alone. -/
theorem execute_add_alone (s : Syncer) (source : Path) (w : World) :
    execute (s.add source false) w = execute (s.addAlone source) w := by
  rw [add, execute_bind, Work.execute_tree]
  simp only [Bool.false_and, Bool.false_eq_true, ↓reduceIte]
  rw [execute_bind]
  cases execute (s.addAlone source) w with
  | mk r w₁ => cases r <;> rfl

/-- How much of a tree has changed when a target was made or written. -/
def OnlyTarget (target : Path) (t t' : FileTree) : Prop :=
  ∀ l, t'.get? l = t.get? l ∨ l = target.names ∨
    l <+: target.names ∧ t.get? l = none ∧ t'.get? l = some .directory

theorem onlyTarget_of_brings {t t' : FileTree} {e : Entry} (h : Brings target.names e t t') :
    OnlyTarget target t t' := by
  intro l
  by_cases hl : l <+: target.names
  · by_cases heq : l = target.names
    · exact .inr (.inl heq)
    · exact (h.above l hl heq).imp_right fun habove => .inr ⟨hl, habove⟩
  · exact .inl (h.elsewhere l hl)

/-! ## Files -/

section OutcomeOf

variable {r : Except Failure (Option (List Char))} {written : Bool}

theorem outcomeOf_transformed : (outcomeOf source target r written).action = .transformed ↔
    (∃ text, r = .ok (some text)) ∧ written = true := by
  match r with
  | .ok (some _) | .ok none | .error _ => cases written <;> simp [outcomeOf]

theorem outcomeOf_copied : (outcomeOf source target r written).action = .copied ↔
    (∀ text, r ≠ .ok (some text)) ∧ written = true := by
  match r with
  | .ok (some _) | .ok none | .error _ => cases written <;> simp [outcomeOf]

theorem outcomeOf_skipped : (outcomeOf source target r written).action = .skipped ↔
    written = false := by
  match r with
  | .ok (some _) | .ok none | .error _ => cases written <;> simp [outcomeOf]

theorem outcomeOf_error {message : String} :
    (outcomeOf source target r written).error = some message ↔
      ∃ f, r = .error f ∧ f.message = message := by
  match r with
  | .ok (some _) | .ok none | .error _ => simp [outcomeOf]

theorem outcomeOf_target : (outcomeOf source target r written).target = some target := by
  match r with
  | .ok (some _) | .ok none | .error _ => rfl

end OutcomeOf

/-- A file that has been added has the bytes that are due at its target, and the outcome
is that of its conversion. -/
theorem addFile_run (ht : w.tree.Sound) (htarget : target.Normal) {content : List UInt8}
    (hread : w.tree.read source = .ok content)
    (hrun : execute (s.addFile source target) w = (.ok o, w')) :
    ∃ written, o = outcomeOf source target (execute (s.converted? source) ⟨w.tree, []⟩).1 written ∧
      Brings target.names (.file (s.dueBytes w.tree source content)) w.tree w'.tree ∧
      w'.tree.get? target.names = some (.file (s.dueBytes w.tree source content)) ∧
      (written = true ↔
        w.tree.get? target.names ≠ some (.file (s.dueBytes w.tree source content))) ∧
      (written = false → w'.tree = w.tree) := by
  obtain ⟨r, ns, -, hr⟩ := readsAlike_converted? (s := s) (.refl source _ w.tree) hread
  have hconv := (hr w.notices).1
  by_cases hstop : ∃ e, r = .error e ∧ e.spoilsConversion = false
  · obtain ⟨e, rfl, hspoils⟩ := hstop
    cases (execute_addFile_stopped target hspoils hconv).symm.trans hrun
  · have hspoils (e : Failure) (he : r = .error e) : e.spoilsConversion = true := by
      rw [← Bool.not_eq_false]
      exact fun hno => hstop ⟨e, he, hno⟩
    obtain ⟨ns', hadd⟩ := execute_addFile_goes_on s source target content r hspoils
    rw [hadd _ _ hconv hread, execute_bind_eq_ok] at hrun
    obtain ⟨written, w₁, hupdate, hdone⟩ := hrun
    rw [execute_pure, Prod.mk.injEq, Except.ok.injEq] at hdone
    obtain ⟨rfl, rfl⟩ := hdone
    rw [dueBytes, (hr []).1]
    exact ⟨written, rfl, update_run (w := ⟨w.tree, w.notices ++ ns ++ ns'⟩) ht htarget hupdate⟩

/-- What the outcome of a file says, told by the script that it is rewritten to. -/
structure ToldOfFile (s : Syncer) (source target : Path) (content : List UInt8) (t t' : FileTree)
    (o : Outcome) : Prop where
  /-- the target has the rewritten text -/
  rewritten : ∀ text, RewrittenTo s t source content text →
    t'.get? target.names = some (.file (Text.encode text))
  /-- or else the bytes of the source -/
  verbatim : (∀ text, ¬ RewrittenTo s t source content text) →
    t'.get? target.names = some (.file content)
  transformed : o.action = .transformed ↔ ∃ text, RewrittenTo s t source content text ∧
    t.get? target.names ≠ some (.file (Text.encode text))
  copied : o.action = .copied ↔ (∀ text, ¬ RewrittenTo s t source content text) ∧
    t.get? target.names ≠ some (.file content)
  noOther : o.action = .transformed ∨ o.action = .copied ∨ o.action = .skipped
  /-- an error is that of a conversion that was attempted -/
  error : ∀ message, o.error = some message ↔
    ∃ f, SpoiledBy s t source content f ∧ f.message = message

theorem toldOfFile {content : List UInt8} {t t' : FileTree} {written : Bool}
    (hread : t.read source = .ok content)
    (hdone : t'.get? target.names = some (.file (s.dueBytes t source content)))
    (hwritten : written = true ↔
      t.get? target.names ≠ some (.file (s.dueBytes t source content))) :
    ToldOfFile s source target content t t'
      (outcomeOf source target (execute (s.converted? source) ⟨t, []⟩).1 written) := by
  have hdue {text : List Char} (h : RewrittenTo s t source content text) :
      s.dueBytes t source content = Text.encode text := dueBytes_of_rewritten hread h
  refine ⟨fun text h => hdue h ▸ hdone,
    fun h => dueBytes_of_not_rewritten hread h ▸ hdone, ?_, ?_, ?_, fun message => ?_⟩
  · rw [outcomeOf_transformed, hwritten]
    simp only [converted?_eq_some hread]
    constructor
    · rintro ⟨⟨text, h⟩, hne⟩
      exact ⟨text, h, hdue h ▸ hne⟩
    · rintro ⟨text, h, hne⟩
      exact ⟨⟨text, h⟩, (hdue h).symm ▸ hne⟩
  · rw [outcomeOf_copied, hwritten]
    simp only [ne_eq, converted?_eq_some hread]
    refine and_congr_right fun h => ?_
    rw [dueBytes_of_not_rewritten hread h]
  · rw [outcomeOf_transformed, outcomeOf_copied, outcomeOf_skipped]
    cases written with
    | false => exact .inr (.inr rfl)
    | true =>
      by_cases hsome : ∃ text, (execute (s.converted? source) ⟨t, []⟩).1 = .ok (some text)
      · exact .inl ⟨hsome, rfl⟩
      · exact .inr (.inl ⟨fun text h => hsome ⟨text, h⟩, rfl⟩)
  · simp only [outcomeOf_error, converted?_eq_error hread]

/-! ## Any path -/

theorem exists_find_of_isThere {t : FileTree} (h : t.isThere source = true) :
    ∃ e, t.find true source = .ok e := by
  rw [isThere] at h
  cases hf : t.find true source with
  | error f => simp [hf, Except.isOk, Except.toBool] at h
  | ok e => exact ⟨e, rfl⟩

/-- What is there is a directory or a file. -/
theorem directory_or_read (ht : w.tree.Sound) (hthere : w.tree.isThere source = true) :
    w.tree.isDirectory source = true ∨ ∃ content, w.tree.read source = .ok content := by
  obtain ⟨e, he⟩ := exists_find_of_isThere hthere
  cases e with
  | directory => exact .inl (isDirectory_iff_find.mpr he)
  | file content => exact .inr ⟨content, by rw [FileTree.read, he]⟩
  | link l =>
    obtain ⟨m, -, hm⟩ := (find_ok_iff_walk ht true).mp he
    exact absurd hm (ht.noLinks m l)

/-- The names of what is there are those of files, and so are those of its target. -/
theorem target_normal_of_isThere {c : Configuration} (houtput : c.outputDir.WellSpelled)
    (ht : w.tree.Sound) (hthere : w.tree.isThere source = true)
    (h : (of c w.tree.current).outputPath (Path.absolute w.tree.current source) = .ok target) :
    target.Normal := by
  obtain ⟨e, he⟩ := exists_find_of_isThere hthere
  obtain ⟨m, hwalk, hm⟩ := (find_ok_iff_walk ht true).mp he
  obtain ⟨names, hnames, rfl⟩ := outputPath_eq_ok_iff.mp h
  refine (Path.absolute_normal ht.current houtput).extend fun n hn => ?_
  refine ht.names m (by rw [hm]; rfl) n ?_
  rw [hwalk.eq_absolute ht, hnames]
  exact List.mem_append_right _ hn

theorem addDirectory_run (ht : w.tree.Sound) (htarget : target.Normal)
    (hnot : w.tree.isDirectory target = false) {o' : Outcome}
    (hrun : execute (do
      Work.change (FileTree.ensureDirectories target)
      return o') w = (.ok o, w')) :
    o = o' ∧ OnlyTarget target w.tree w'.tree ∧ w'.tree.get? target.names = some .directory ∧
      w'.tree ≠ w.tree := by
  obtain ⟨r, t', hens, hopens, hdone, -⟩ := execute_ensureDirectories ht htarget
  rw [execute_bind, Work.execute_change hens] at hrun
  cases r with
  | error f => cases hrun
  | ok =>
    obtain ⟨ho, rfl⟩ := Prod.mk.inj hrun
    refine ⟨(Except.ok.inj ho).symm, onlyTarget_of_brings hopens.brings, hdone rfl, ?_⟩
    rintro heq
    rw [← Bool.not_eq_true, isDirectory_iff ht htarget, ← heq] at hnot
    exact hnot (hdone rfl)

end SceneSync.Syncer
