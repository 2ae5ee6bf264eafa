import Mathlib
import SceneSync.Proofs.Descriptor
import SceneSync.Proofs.FileTree.Walk
import SceneSync.Proofs.Synchronisation.Reading
import SceneSync.Proofs.Synchronisation.Separate

/-!
# Filling the output

While paths of the watched directory are added one after the other, the watched
directory stays as it was. So each addition puts at its target what was due there from
the beginning, and what has been put there stays.
-/

namespace SceneSync.Syncer

open FileTree

variable {s : Syncer} {t₀ t t' : FileTree} {w w' : World} {p q : List String} {e : Entry}

/-- What is due at the target of a path that is not excluded. -/
def due? (s : Syncer) (t : FileTree) (p : List String) : Option Entry :=
  match s.source? t p with
  | some (.file content) => some (.file (s.dueBytes t (s.sourceAt p) content))
  | e => e

theorem due?_eq_none : s.due? t p = none ↔ s.source? t p = none := by
  rw [due?]
  split <;> simp_all

theorem due?_directory : s.due? t p = some .directory ↔ s.source? t p = some .directory := by
  rw [due?]
  split <;> simp_all

/-- A location is a target, or a directory that was made on the way to one. -/
def Touched (s : Syncer) (t₀ t : FileTree) (l : Location) : Prop :=
  ∃ p, s.Keeps p ∧ (s.source? t₀ p).isSome ∧ (l = s.outputRoot.names ++ p ∨
    l <+: s.outputRoot.names ++ p ∧ t₀.get? l = none ∧ t.get? l = some .directory)

/-- Additions have led from `t₀` to `t`. -/
structure Underway (s : Syncer) (t₀ t : FileTree) : Prop where
  sound : t.Sound
  distinct : t.Distinct
  current : t.current = t₀.current
  source : ∀ p, s.source? t p = s.source? t₀ p
  frame : ∀ l, t.get? l = t₀.get? l ∨ Touched s t₀ t l

theorem Underway.start (ht : t.Sound) (hdistinct : t.Distinct) : Underway s t t :=
  ⟨ht, hdistinct, rfl, fun _ => rfl, fun _ => .inl rfl⟩

/-- What adding a path does: nothing when the path is excluded or gone, and else its
target gets what is due there. -/
inductive Fills (s : Syncer) (t₀ : FileTree) (p : List String) (t t' : FileTree) : Prop
  | passed : t' = t → (s.Keeps p → s.due? t₀ p = none) → Fills s t₀ p t t'
  | filled {e : Entry} : s.Keeps p → s.due? t₀ p = some e →
      Brings (s.outputRoot.names ++ p) e t t' → s.output? t' p = some e → Fills s t₀ p t t'

/-- What is due at the target of a path stands there, unless the path is excluded. -/
def Filled (s : Syncer) (t₀ t : FileTree) (p : List String) : Prop :=
  ∀ e, s.Keeps p → s.due? t₀ p = some e → s.output? t p = some e

theorem Fills.filled_self (h : Fills s t₀ p t t') : Filled s t₀ t' p := by
  intro e hkeep he
  cases h with
  | passed _ hnone =>
    rw [hnone hkeep] at he
    cases he
  | filled _ he' _ hout =>
    obtain rfl := Option.some.inj (he'.symm.trans he)
    exact hout

/-- What has been put at a target stays there. -/
theorem Fills.keeps (h : Fills s t₀ p t t') (hq : Filled s t₀ t q) : Filled s t₀ t' q := by
  by_cases hqp : q = p
  · exact hqp ▸ h.filled_self
  · intro e hkeep he
    have hout := hq e hkeep he
    cases h with
    | passed heq _ => rwa [heq]
    | filled _ _ hbrings _ =>
      by_cases hon : s.outputRoot.names ++ q <+: s.outputRoot.names ++ p
      · rcases hbrings.above _ hon (by simpa using hqp) with hsame | ⟨hnone, -⟩
        · exact hsame.trans hout
        · cases hnone.symm.trans hout
      · exact (hbrings.elsewhere _ hon).trans hout

theorem Fills.underway (hs : s.Separate) (hu : Underway s t₀ t) (h : Fills s t₀ p t t')
    (hdistinct : t'.Distinct) : Underway s t₀ t' := by
  cases h with
  | passed heq _ => rwa [heq]
  | @filled e hkeep he hbrings _ =>
    have hthere : (s.source? t₀ p).isSome := by
      rw [Option.isSome_iff_ne_none, ne_eq, ← due?_eq_none, he]
      simp
    refine ⟨hbrings.sound, hdistinct, hbrings.current.trans hu.current, fun q => ?_, fun l => ?_⟩
    · exact (hbrings.elsewhere _ (source_not_above hs p q)).trans (hu.source q)
    · -- What was touched before is a directory still.
      have hstill (hsame : t'.get? l = t.get? l) :
          t'.get? l = t₀.get? l ∨ Touched s t₀ t' l := by
        rcases hu.frame l with heq | ⟨q, hq, hsource, htouched⟩
        · exact .inl (hsame.trans heq)
        · exact .inr ⟨q, hq, hsource, by rwa [hsame]⟩
      by_cases hl : l <+: s.outputRoot.names ++ p
      · by_cases heq : l = s.outputRoot.names ++ p
        · exact .inr ⟨p, hkeep, hthere, .inl heq⟩
        · rcases hbrings.above l hl heq with hsame | ⟨hnone, hdir⟩
          · exact hstill hsame
          · refine .inr ?_
            rcases hu.frame l with heq | ⟨q, hq, hsource, htarget | ⟨-, -, hdir'⟩⟩
            · exact ⟨p, hkeep, hthere, .inr ⟨hl, heq ▸ hnone, hdir⟩⟩
            · exact ⟨q, hq, hsource, .inl htarget⟩
            · cases hnone.symm.trans hdir'
      · exact hstill (hbrings.elsewhere l hl)

/-! ## One addition -/

/-- A script is the same in two trees that agree on it and on what may be its
descriptor. -/
theorem sameScript_of_files {script : Path} {extension : String} {content : List UInt8}
    (hscript : script.Normal) (ht : t.Sound) (ht' : t'.Sound) (hcurrent : t'.current = t.current)
    (hfile : t.get? script.names = some (.file content))
    (hfile' : t'.get? script.names = some (.file content))
    (hbeside : ∀ n, Path.ValidName n →
      Descriptor.pathOf script extension = .ok (script.replaceName n) →
      ∀ b, t'.get? (script.replaceName n).names = some (.file b) ↔
        t.get? (script.replaceName n).names = some (.file b)) :
    SameScript script extension t t' := by
  refine ⟨hcurrent, ?_, fun d hd => ?_, fun d hd hd' => ?_⟩
  · rw [(read_ok_iff ht hscript).mpr hfile, (read_ok_iff ht' hscript).mpr hfile']
  all_goals
    obtain ⟨n, rfl⟩ := Descriptor.pathOf_replaceName hd
    by_cases hn : Path.ValidName n
  · have hnormal := hscript.replaceName hn
    rw [Bool.eq_iff_iff, isFile_iff ht' hnormal, isFile_iff ht hnormal]
    exact exists_congr (hbeside n hn hd)
  · rw [isFile_replaceName_invalid ht' _ hn, isFile_replaceName_invalid ht _ hn]
  · have hnormal := hscript.replaceName hn
    obtain ⟨b, hb⟩ := (isFile_iff ht hnormal).mp hd'
    rw [(read_ok_iff ht hnormal).mpr hb,
      (read_ok_iff ht' hnormal).mpr ((hbeside n hn hd b).mpr hb)]
  · rw [isFile_replaceName_invalid ht _ hn] at hd'
    cases hd'

/-- A script and its descriptor are the same as at the beginning. -/
theorem Underway.sameScript (hs : s.Separate) (ht₀ : t₀.Sound) (hu : Underway s t₀ t)
    (hp : ∀ n ∈ p, Path.ValidName n) (hne : p ≠ []) {content : List UInt8}
    (hfile : s.source? t₀ p = some (.file content)) (extension : String) :
    SameScript (s.sourceAt p) extension t₀ t := by
  refine sameScript_of_files (hs.source_normal hp) ht₀ hu.sound hu.current hfile
    ((hu.source p).trans hfile) fun n _ _ b => ?_
  have hbeside : ((s.sourceAt p).replaceName n).names =
      s.watchRoot.names ++ (p.dropLast ++ [n]) := by
    simp [Path.replaceName, sourceAt, Path.extend, List.dropLast_append_of_ne_nil hne]
  rw [hbeside]
  exact Eq.congr_left (hu.source _)

theorem Underway.sameDue (hs : s.Separate) (ht₀ : t₀.Sound) (hu : Underway s t₀ t)
    (hp : ∀ n ∈ p, Path.ValidName n) (hne : p ≠ []) {content : List UInt8}
    (hfile : s.source? t₀ p = some (.file content)) : SameDue s (s.sourceAt p) t₀ t :=
  sameDue_of_sameScript (hu.sameScript hs ht₀ hp hne hfile _)
    ((read_ok_iff ht₀ (hs.source_normal hp)).mpr hfile)

theorem preserves_update (target : Path) (b : List UInt8) :
    Preserves (fun w : World => w.tree.Distinct) (update target b) := by
  have hread (p : Path) : Preserves (fun w : World => w.tree.Distinct) (Work.readBytes p) := by
    intro w hw
    rwa [execute_readBytes]
  have hwrite : Preserves (fun w : World => w.tree.Distinct) (do
      Work.change do
        FileTree.ensureDirectories target.parent
        FileTree.write target b
      return true) :=
    .bind (Work.preserves_change (.bind (preserves_ensureDirectories _) fun _ =>
      preserves_write _ _)) fun _ => .pure _
  rw [update]
  refine .bind (fun _ hw => hw) fun t => ?_
  split
  · refine .bind (hread _) fun b' => ?_
    split
    · exact .pure _
    · exact hwrite
  · exact hwrite

/-- An outcome that does not report a failure to reach the target. -/
def Fine (o : Outcome) : Prop := o.action = .ignored → o.error = none

/-- How adding a path ends. It fails only when something stands in the way of what is due,
or for want of a name for a descriptor. -/
structure Added (s : Syncer) (t₀ : FileTree) (p : List String) (r : Except Failure Outcome)
    (w w' : World) : Prop where
  done : ∀ o, r = .ok o → o.source = s.sourceAt p ∧ Fine o ∧ Fills s t₀ p w.tree w'.tree ∧
    w'.tree.Distinct
  succeeds : Descriptor.PlainSuffix s.configuration.extension →
    (∀ e, s.Keeps p → s.due? t₀ p = some e → w.tree.Ready (s.outputRoot.names ++ p) e) →
    ∃ o, r = .ok o

/-- What is excluded or gone is passed over. -/
theorem Underway.added_passed (hs : s.Separate) (hu : Underway s t₀ w.tree)
    (hp : ∀ n ∈ p, Path.ValidName n) (h : s.Keeps p → s.source? t₀ p = none) :
    ∃ r w', execute (s.addAlone (s.sourceAt p)) w = (r, w') ∧ Added s t₀ p r w w' := by
  have hignored :
      (s.excludes (s.sourceAt p).toString || !w.tree.isThere (s.sourceAt p)) = true := by
    cases hkeep : s.excludes (s.sourceAt p).toString with
    | true => rfl
    | false =>
      rw [Bool.false_or, Bool.not_eq_true', ← Bool.not_eq_true,
        isThere_iff hu.sound (hs.source_normal hp), show w.tree.get? (s.sourceAt p).names = none from
          (hu.source p).trans (h hkeep)]
      simp
  rw [addAlone, execute_bind, Work.execute_tree]
  simp only
  rw [if_pos hignored]
  refine ⟨_, w, rfl, fun o ho => ?_, fun _ _ => ⟨_, rfl⟩⟩
  obtain rfl := Except.ok.inj ho
  exact ⟨rfl, fun _ => rfl, .passed rfl fun hkeep => due?_eq_none.mpr (h hkeep), hu.distinct⟩

/-- What is there and not excluded has a target. -/
theorem Underway.execute_addAlone (hs : s.Separate) (hu : Underway s t₀ w.tree)
    (hp : ∀ n ∈ p, Path.ValidName n) (hkeep : s.Keeps p) (he : s.source? t₀ p = some e) :
    execute (s.addAlone (s.sourceAt p)) w = execute (do
      if e = .directory then
        if w.tree.isDirectory (s.targetAt p) then
          return ⟨s.sourceAt p, .skipped, some (s.targetAt p), none⟩
        Work.change (FileTree.ensureDirectories (s.targetAt p))
        return ⟨s.sourceAt p, .createdDir, some (s.targetAt p), none⟩
      s.addFile (s.sourceAt p) (s.targetAt p)) w := by
  have he' : w.tree.get? (s.sourceAt p).names = some e := (hu.source p).trans he
  have hthere : w.tree.isThere (s.sourceAt p) = true :=
    (isThere_iff hu.sound (hs.source_normal hp)).mpr (by rw [he']; rfl)
  have hdir : w.tree.isDirectory (s.sourceAt p) = true ↔ e = .directory := by
    rw [isDirectory_iff hu.sound (hs.source_normal hp), he', Option.some_inj]
  rw [Keeps] at hkeep
  rw [addAlone, execute_bind, Work.execute_tree]
  simp only [hkeep, hthere, Bool.not_true, Bool.or_self, Bool.false_eq_true, ↓reduceIte, hdir]
  rw [execute_bind_ok (execute_target_ok (hs.outputPath hp _))]

theorem Underway.added_directory (hs : s.Separate) (hu : Underway s t₀ w.tree)
    (hp : ∀ n ∈ p, Path.ValidName n) (hkeep : s.Keeps p) (hdir : s.source? t₀ p = some .directory) :
    ∃ r w', execute (s.addAlone (s.sourceAt p)) w = (r, w') ∧ Added s t₀ p r w w' := by
  have htarget := hs.target_normal hp
  have hdue : s.due? t₀ p = some .directory := due?_directory.mpr hdir
  rw [hu.execute_addAlone hs hp hkeep hdir, if_pos rfl]
  by_cases hthere : w.tree.isDirectory (s.targetAt p) = true
  · rw [if_pos hthere]
    refine ⟨_, w, rfl, fun o ho => ?_, fun _ _ => ⟨_, rfl⟩⟩
    obtain rfl := Except.ok.inj ho
    exact ⟨rfl, by simp [Fine], .filled hkeep hdue (.refl hu.sound _ _)
      ((isDirectory_iff hu.sound htarget).mp hthere), hu.distinct⟩
  · obtain ⟨r, t', hens, hopens, hdone, hclear⟩ := execute_ensureDirectories hu.sound htarget
    rw [if_neg hthere, execute_bind, Work.execute_change hens]
    cases r with
    | error f =>
      refine ⟨_, _, rfl, by simp, fun _ hready => ?_⟩
      cases hclear (hready _ hkeep hdue).clear
    | ok =>
      have hdistinct := preserves_ensureDirectories (s.targetAt p) w.tree hu.distinct
      rw [hens] at hdistinct
      refine ⟨_, _, rfl, fun o ho => ?_, fun _ _ => ⟨_, rfl⟩⟩
      obtain rfl := Except.ok.inj ho
      exact ⟨rfl, by simp [Fine], .filled hkeep hdue hopens.brings (hdone rfl), hdistinct⟩

theorem Underway.added_file (hs : s.Separate) (ht₀ : t₀.Sound) (hu : Underway s t₀ w.tree)
    (hp : ∀ n ∈ p, Path.ValidName n) (hkeep : s.Keeps p) {content : List UInt8}
    (hfile : s.source? t₀ p = some (.file content)) (hsame : SameDue s (s.sourceAt p) t₀ w.tree) :
    ∃ r w', execute (s.addAlone (s.sourceAt p)) w = (r, w') ∧ Added s t₀ p r w w' := by
  have hsource := hs.source_normal hp
  obtain ⟨bytes, hbytes⟩ : ∃ bytes, bytes = s.dueBytes t₀ (s.sourceAt p) content := ⟨_, rfl⟩
  have hdue : s.due? t₀ p = some (.file bytes) := by rw [due?, hfile, hbytes]
  rw [hu.execute_addAlone hs hp hkeep hfile, if_neg (by simp)]
  rcases execute_addFile_alike hsame ((read_ok_iff ht₀ hsource).mpr hfile) (s.targetAt p) with
    ⟨⟨f, hunnamed⟩, f', ns, hfail⟩ | ⟨outcome, ns, htells, hupdate⟩
  · refine ⟨_, _, (hfail w.notices).2, by simp, fun hext _ => ?_⟩
    have hname : Path.ValidName (s.sourceAt p).name := by
      obtain ⟨l, n, hl⟩ := List.eq_nil_or_concat (s.sourceAt p).names |>.resolve_left
        (by simp [hs.watch_ne_nil])
      have hn := hsource.names n (by rw [hl]; simp)
      rwa [Path.name, hl, List.concat_eq_append, List.getLast?_concat]
    obtain ⟨d, hd⟩ := Descriptor.pathOf_isOk hname hext
    cases hd.symm.trans hunnamed
  · rw [← hbytes] at hupdate
    obtain ⟨r, t', hrun, hbrings, hdone, -, hready⟩ := execute_update
      (w := ⟨w.tree, w.notices ++ ns⟩) hu.sound (hs.target_normal hp) (by simp [hs.output_ne_nil])
      bytes
    have hdistinct := preserves_update (s.targetAt p) bytes ⟨w.tree, w.notices ++ ns⟩ hu.distinct
    rw [hrun] at hdistinct
    rw [show w = ⟨w.tree, w.notices⟩ from rfl, (hupdate w.notices).2, execute_bind, hrun]
    cases r with
    | error f =>
      refine ⟨_, _, rfl, by simp, fun _ hroom => ?_⟩
      obtain ⟨x, hx⟩ := hready (hroom _ hkeep hdue)
      cases hx
    | ok written =>
      refine ⟨_, _, rfl, fun o ho => ?_, fun _ _ => ⟨_, rfl⟩⟩
      obtain rfl := Except.ok.inj ho
      exact ⟨htells.source written, fun h => absurd h (htells.notIgnored written),
        .filled hkeep hdue hbrings (hdone written rfl), hdistinct⟩

/-- Adding a path, whatever it is. -/
theorem Underway.added (hs : s.Separate) (ht₀ : t₀.Sound)
    (hroot : s.source? t₀ [] = some .directory) (hu : Underway s t₀ w.tree)
    (hp : ∀ n ∈ p, Path.ValidName n) :
    ∃ r w', execute (s.addAlone (s.sourceAt p)) w = (r, w') ∧ Added s t₀ p r w w' := by
  by_cases hkeep : s.Keeps p
  · cases he : s.source? t₀ p with
    | none => exact hu.added_passed hs hp fun _ => he
    | some e =>
      cases e with
      | directory => exact hu.added_directory hs hp hkeep he
      | file content =>
        have hne : p ≠ [] := by
          rintro rfl
          cases hroot.symm.trans he
        exact hu.added_file hs ht₀ hp hkeep he (hu.sameDue hs ht₀ hp hne he)
      | link target => exact absurd he (ht₀.noLinks _ _)
  · exact hu.added_passed hs hp fun h => absurd h hkeep

/-! ## Room -/

/-- Nothing stands in the way of what is due. -/
def Roomy (s : Syncer) (t₀ t : FileTree) : Prop :=
  ∀ p e, s.Keeps p → s.due? t₀ p = some e → t.Ready (s.outputRoot.names ++ p) e

theorem due?_above (ht : t.Sound) (h : s.due? t p = some e) (hq : q <+: p) (hne : q ≠ p) :
    s.due? t q = some .directory := by
  obtain ⟨e', he'⟩ : ∃ e', s.source? t p = some e' := by
    rw [← Option.ne_none_iff_exists', ne_eq, ← due?_eq_none, h]
    simp
  exact due?_directory.mpr (source?_above ht he' hq hne)

theorem due?_ne_link (ht : t.Sound) (h : s.due? t p = some e) : SameKind e e := by
  rw [due?] at h
  split at h
  · rw [← Option.some.inj h]
    trivial
  · exact ht.sameKind_self h

/-- There is room in an empty output. -/
theorem roomy_of_empty (hroot : s.source? t [] = some .directory) (he : OutputEmpty s t) :
    Roomy s t t := by
  intro p e _ hdue
  refine ⟨fun m hm hne => ?_, fun e' he' => ?_⟩
  · rcases prefix_append_cases hm with hm | ⟨k, rfl, -⟩
    · exact he.clear m hm
    · by_cases hk : k = []
      · subst hk
        exact he.clear _ (by simp)
      · exact .inl (he.nothing k hk)
  · by_cases hp : p = []
    · subst hp
      obtain rfl := Option.some.inj ((due?_directory.mpr hroot).symm.trans hdue)
      rcases he.clear _ (List.prefix_rfl) with hnone | hdir
      · rw [List.append_nil, hnone] at he'
        cases he'
      · rw [List.append_nil, hdir] at he'
        rw [← Option.some.inj he']
        trivial
    · cases (he.nothing p hp).symm.trans he'

/-- What fills one target is not in the way of the others. -/
theorem Fills.roomy (ht₀ : t₀.Sound) (h : Fills s t₀ p t t') (hroom : Roomy s t₀ t) :
    Roomy s t₀ t' := by
  cases h with
  | passed heq _ => rwa [heq]
  | @filled e hkeep he hbrings hout =>
    intro q e' hq he'
    have hold := hroom q e' hq he'
    have hbelow {m k : List String} : s.outputRoot.names ++ m <+: s.outputRoot.names ++ k ↔
        m <+: k := List.prefix_append_right_inj _
    refine ⟨fun m hm hne => ?_, fun e'' he'' => ?_⟩
    · by_cases hmp : m <+: s.outputRoot.names ++ p
      · by_cases heq : m = s.outputRoot.names ++ p
        · subst heq
          have hdir := due?_above ht₀ he' (hbelow.mp hm) (by rintro rfl; exact hne rfl)
          obtain rfl := Option.some.inj (he.symm.trans hdir)
          exact .inr hout
        · rcases hbrings.above m hmp heq with hsame | ⟨-, hdir⟩
          · rw [hsame]
            exact hold.1 m hm hne
          · exact .inr hdir
      · rw [hbrings.elsewhere m hmp]
        exact hold.1 m hm hne
    · by_cases hqp : q <+: p
      · by_cases heq : q = p
        · subst heq
          obtain rfl := Option.some.inj (he.symm.trans he')
          obtain rfl := Option.some.inj (hout.symm.trans he'')
          exact due?_ne_link ht₀ he
        · rcases hbrings.above _ (hbelow.mpr hqp) (by simpa using heq) with hsame | ⟨-, hdir⟩
          · exact hold.2 e'' (hsame ▸ he'')
          · obtain rfl := Option.some.inj (hdir.symm.trans he'')
            obtain rfl := Option.some.inj ((due?_above ht₀ he hqp heq).symm.trans he')
            trivial
      · exact hold.2 e'' ((hbrings.elsewhere _ (mt hbelow.mp hqp)) ▸ he'')

end SceneSync.Syncer
