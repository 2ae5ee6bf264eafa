import Mathlib
import SceneSync.Proofs.Synchronisation.Beside

/-!
# The scripts of a descriptor

When the scripts of a descriptor are added one after the other, each of them is brought
up to date and the others are kept so. With nothing in the way of the targets none of
this fails.
-/

namespace SceneSync.Syncer

open FileTree

variable {s : Syncer} {script cwd : Path} {place : List String} {t t' : FileTree} {w w' : World}
  {n m : String}

/-! ## Adding a file -/

/-- The target of a file holds what adding the file puts there: to add it again leaves
everything as it is. -/
def Reproduced (s : Syncer) (source : Path) (t : FileTree) : Prop :=
  ∃ target bytes, s.outputPath (Path.absolute t.current source) = .ok target ∧
    t.read target = .ok bytes ∧
    ∀ n, ∃ o ns, execute (s.addAlone source) ⟨t, n⟩ = (.ok o, ⟨t, n ++ ns⟩) ∧
      o.action = .skipped ∧ o.target = some target

theorem execute_addAlone_file {source target : Path} (hfile : w.tree.isFile source = true)
    (hkeep : s.excludes source.toString = false)
    (htarget : s.outputPath (Path.absolute w.tree.current source) = .ok target) :
    execute (s.addAlone source) w = execute (s.addFile source target) w := by
  obtain ⟨hthere, hdir⟩ := isThere_of_isFile hfile
  rw [addAlone, execute_bind, Work.execute_tree]
  simp only [hkeep, hthere, hdir, Bool.not_true, Bool.or_self, Bool.false_eq_true, ↓reduceIte]
  rw [execute_bind_ok (execute_target_ok htarget)]

/-- A run that updates a target and says what it did. -/
theorem execute_update_then (ht : w.tree.Sound) {target : Path} (htarget : target.Normal)
    (hne : target.names ≠ []) {b : List UInt8} {outcome : Bool → Outcome} {o : Outcome}
    (h : execute (do return outcome (← update target b)) w = (.ok o, w')) :
    Brings target.names (.file b) w.tree w'.tree ∧
      w'.tree.get? target.names = some (.file b) := by
  obtain ⟨r, t', hupdate, hbrings, hdone, -, -⟩ := execute_update ht htarget hne b
  rw [execute_bind, hupdate] at h
  cases r with
  | error f => cases h
  | ok x =>
    obtain ⟨-, rfl⟩ := Prod.mk.inj h
    exact ⟨hbrings, hdone x rfl⟩

theorem Beside.outputPath (hb : Beside s script cwd place) (hn : n ≠ "..") :
    s.outputPath (Path.absolute cwd (script.replaceName n)) =
      .ok (s.outputRoot.extend (place ++ [n])) := by
  rw [hb.absolute n hn, Syncer.outputPath, Path.below?_extend]
  rfl

/-- Adding a neighbour with success brings its target, and nothing else. -/
theorem Beside.addAlone_brings (hb : Beside s script cwd place) (hh : Hosts s script cwd place t)
    (hn : Path.ValidName n)
    (hkeep : s.excludes (script.replaceName n).toString = false)
    (hfile : t.isFile (script.replaceName n) = true) {ns : List Notice} {o : Outcome}
    (hexec : execute (s.addAlone (script.replaceName n)) ⟨t, ns⟩ = (.ok o, w')) :
    ∃ b, Brings (s.outputRoot.names ++ place ++ [n]) (.file b) t w'.tree := by
  have htarget := hb.target_normal hn
  have houtput := hb.outputPath hn.notUp
  rw [← hh.current] at houtput
  rw [execute_addAlone_file (w := ⟨t, ns⟩) hfile hkeep houtput] at hexec
  obtain ⟨content, hcontent⟩ := (hh.isFile_iff hn.notUp).mp hfile
  have hread := (hh.read_iff hn.notUp).mpr hcontent
  rcases execute_addFile_alike (sameDue_of_sameScript (.refl _ _ t) hread) hread
      (s.outputRoot.extend (place ++ [n])) with ⟨-, f, ms, hfail⟩ | ⟨outcome, ms, -, hupdate⟩
  · rw [(hfail ns).1] at hexec
    cases hexec
  · rw [(hupdate ns).1] at hexec
    have hbrings := (execute_update_then hh.sound htarget (by simp) hexec).1
    exact ⟨_, by simpa using hbrings⟩

/-- When a target holds what adding its script has put there once, it does so again as
long as nobody changes the script, its descriptor or the target. -/
theorem Beside.reproduced (hb : Beside s script cwd place) (hh : Hosts s script cwd place t)
    (hh' : Hosts s script cwd place t') (hfiles : SameFiles s place t t')
    (hn : Path.ValidName n) (hm : m ≠ "..")
    (hd : Descriptor.pathOf (script.replaceName n) s.configuration.extension =
      .ok (script.replaceName m))
    (hkeep : s.excludes (script.replaceName n).toString = false)
    (hfile : t.isFile (script.replaceName n) = true) {ns : List Notice} {o : Outcome}
    (hexec : execute (s.addAlone (script.replaceName n)) ⟨t, ns⟩ = (.ok o, w'))
    (htarget : t'.get? (s.outputRoot.names ++ place ++ [n]) =
      w'.tree.get? (s.outputRoot.names ++ place ++ [n])) :
    Reproduced s (script.replaceName n) t' := by
  have hnormal := hb.target_normal hn
  have hsame := hfiles.sameScript hh hh' hn.notUp hm hd hfile
  have houtput := hb.outputPath hn.notUp
  have houtput' := houtput
  rw [← hh.current] at houtput
  rw [← hh'.current] at houtput'
  obtain ⟨content, hcontent⟩ := (hh.isFile_iff hn.notUp).mp hfile
  have hfile' := (hfiles.isFile_iff hh hh' hn.notUp).mpr hfile
  rw [execute_addAlone_file (w := ⟨t, ns⟩) hfile hkeep houtput] at hexec
  have hread := (hh.read_iff hn.notUp).mpr hcontent
  rcases execute_addFile_alike (sameDue_of_sameScript hsame hread) hread
      (s.outputRoot.extend (place ++ [n])) with
    ⟨-, f, ms, hfail⟩ | ⟨outcome, ms, htells, hupdate⟩
  · rw [(hfail ns).1] at hexec
    cases hexec
  · rw [(hupdate ns).1] at hexec
    have hheld := (execute_update_then hh.sound hnormal (by simp) hexec).2
    have hheld' : t'.get? (s.outputRoot.extend (place ++ [n])).names =
        some (.file (s.dueBytes t (script.replaceName n) content)) := by
      rw [← hheld, Path.extend_names, ← List.append_assoc]
      exact htarget
    refine ⟨_, _, houtput', (read_ok_iff hh'.sound hnormal).mpr hheld', fun n' => ?_⟩
    rw [execute_addAlone_file (w := ⟨t', n'⟩) hfile' hkeep houtput', (hupdate n').2,
      execute_bind, execute_update_same hh'.sound hnormal hheld']
    exact ⟨outcome false, ms, rfl, htells.skipped, htells.target⟩

/-! ## The scripts of a descriptor -/

/-- A stem that scripts share with a descriptor. -/
structure Family (s : Syncer) (stem : String) : Prop where
  nonempty : stem ≠ ""
  noSlash : '/' ∉ stem.toList
  extension : Descriptor.PlainSuffix s.configuration.extension

/-- The suffix of a path can be exchanged for that of any script. -/
def LeadsToScripts (source script : Path) (stem : String) : Prop :=
  ∀ e ∈ Descriptor.scriptSuffixes, source.withSuffix e = .ok (script.replaceName (stem ++ e))

theorem Family.validScript {stem e : String} (h : Family s stem)
    (he : e ∈ Descriptor.scriptSuffixes) : Path.ValidName (stem ++ e) :=
  (Descriptor.plainSuffix_of_mem he).validName h.nonempty h.noSlash

theorem Family.validDescriptor {stem : String} (h : Family s stem) :
    Path.ValidName (stem ++ s.configuration.extension) :=
  h.extension.validName h.nonempty h.noSlash

theorem Family.leadsToScripts {stem e : String} (h : Family s stem)
    (he : Descriptor.PlainSuffix e) (script : Path) :
    LeadsToScripts (script.replaceName (stem ++ e)) script stem :=
  fun _ he' => he.withSuffix (Descriptor.plainSuffix_of_mem he').usable h.nonempty

/-- The scripts with some suffixes are up to date, but for those that are excluded. -/
def ScriptsReproduced (s : Syncer) (script : Path) (stem : String) (exts : List String)
    (t : FileTree) : Prop :=
  ∀ e ∈ exts, s.excludes (script.replaceName (stem ++ e)).toString = false →
    t.isFile (script.replaceName (stem ++ e)) = true →
      Reproduced s (script.replaceName (stem ++ e)) t

variable {stem e : String} {exts done : List String} {source : Path}

/-- A turn of the loop changes nothing for a script that is up to date or left out. -/
theorem execute_addScriptOf_same (hsource : LeadsToScripts source script stem)
    (he : e ∈ Descriptor.scriptSuffixes) (hdone : ScriptsReproduced s script stem [e] t)
    (n : List Notice) :
    ∃ ns, execute (s.addScriptOf source e) ⟨t, n⟩ = (.ok (), ⟨t, n ++ ns⟩) := by
  rw [addScriptOf, hsource e he, execute_bind, Work.execute_ofExcept_ok]
  simp only [execute_bind, Work.execute_tree]
  by_cases hfile : t.isFile (script.replaceName (stem ++ e)) = true
  · rw [if_pos hfile]
    cases hkeep : s.excludes (script.replaceName (stem ++ e)).toString with
    | true =>
      have hadd : execute (s.addAlone (script.replaceName (stem ++ e))) ⟨t, n⟩ =
          (.ok ⟨script.replaceName (stem ++ e), .ignored, none, none⟩, ⟨t, n⟩) := by
        rw [addAlone, execute_bind, Work.execute_tree]
        simp [hkeep]
      exact ⟨[], by rw [execute_bind_ok hadd]; simp⟩
    | false =>
      obtain ⟨target, bytes, -, -, hagain⟩ := hdone e (by simp) hkeep hfile
      obtain ⟨o, ns, hadd, -⟩ := hagain n
      exact ⟨ns, by rw [execute_bind_ok hadd]; rfl⟩
  · rw [if_neg hfile]
    exact ⟨[], by simp⟩

theorem execute_addScriptsOf_same (hsource : LeadsToScripts source script stem)
    (hdone : ScriptsReproduced s script stem Descriptor.scriptSuffixes t) (n : List Notice) :
    ∃ ns, execute (s.addScriptsOf source) ⟨t, n⟩ = (.ok (), ⟨t, n ++ ns⟩) := by
  have hloop (exts : List String) (hexts : ∀ e ∈ exts, e ∈ Descriptor.scriptSuffixes)
      (n : List Notice) :
      ∃ ns, execute (forM exts (s.addScriptOf source)) ⟨t, n⟩ = (.ok (), ⟨t, n ++ ns⟩) := by
    induction exts generalizing n with
    | nil => exact ⟨[], by simp⟩
    | cons e exts ih =>
      have he := hexts e (by simp)
      obtain ⟨ns, hturn⟩ := execute_addScriptOf_same hsource he
        (fun e' he' => hdone e' (by simpa [List.mem_singleton.mp he'] using he)) n
      obtain ⟨ms, hrest⟩ := ih (fun e' he' => hexts e' (by simp [he'])) (n ++ ns)
      refine ⟨ns ++ ms, ?_⟩
      rw [List.forM_cons, execute_bind_ok hturn, hrest, List.append_assoc]
  rw [addScriptsOf_eq]
  exact hloop _ (fun _ h => h) n

/-- Bringing the target of one script keeps the others up to date. -/
theorem ScriptsReproduced.brings (hb : Beside s script cwd place)
    (hfamily : Family s stem) (hh : Hosts s script cwd place t)
    (hexts : ∀ e ∈ done, e ∈ Descriptor.scriptSuffixes)
    (hdone : ScriptsReproduced s script stem done t) {entry : Entry}
    (hbrings : Brings (s.outputRoot.names ++ place ++ [n]) entry t t') :
    ∀ e ∈ done, stem ++ e ≠ n → s.excludes (script.replaceName (stem ++ e)).toString = false →
      t'.isFile (script.replaceName (stem ++ e)) = true →
        Reproduced s (script.replaceName (stem ++ e)) t' := by
  intro e he hne hkeep hfile'
  have hn := hfamily.validScript (hexts e he)
  have hh' := hh.brings hbrings
  have hfiles := hb.sameFiles hbrings
  have hfile := (hfiles.isFile_iff hh hh' hn.notUp).mp hfile'
  obtain ⟨target, bytes, -, -, hagain⟩ := hdone e he hkeep hfile
  obtain ⟨o, ns, hadd, -⟩ := hagain []
  refine hb.reproduced hh hh' hfiles hn hfamily.validDescriptor.notUp
    (Descriptor.pathOf_append (hexts e he) hfamily.extension.usable hfamily.nonempty) hkeep hfile hadd
    (hbrings.elsewhere _ fun hnear => hne ?_)
  have heq := hnear.eq_of_length (by simp)
  simpa using heq

/-- A turn of the loop brings one script up to date and keeps the others. -/
theorem Beside.addScriptOf_step (hb : Beside s script cwd place)
    (hfamily : Family s stem) (hsource : LeadsToScripts source script stem)
    (hh : Hosts s script cwd place t) (he : e ∈ Descriptor.scriptSuffixes)
    (hexts : ∀ e ∈ done, e ∈ Descriptor.scriptSuffixes)
    (hdone : ScriptsReproduced s script stem done t) {ns : List Notice}
    (hexec : execute (s.addScriptOf source e) ⟨t, ns⟩ = (.ok (), w')) :
    Hosts s script cwd place w'.tree ∧ SameFiles s place t w'.tree ∧
      ScriptsReproduced s script stem (e :: done) w'.tree := by
  have hn := hfamily.validScript he
  by_cases hadds : s.excludes (script.replaceName (stem ++ e)).toString = false ∧
      t.isFile (script.replaceName (stem ++ e)) = true
  · obtain ⟨hkeep, hfile⟩ := hadds
    obtain ⟨o, hadd⟩ : ∃ o, execute (s.addAlone (script.replaceName (stem ++ e))) ⟨t, ns⟩ =
        (.ok o, w') := by
      rw [addScriptOf, hsource e he, execute_bind, Work.execute_ofExcept_ok] at hexec
      simp only [execute_bind, Work.execute_tree, hfile, ↓reduceIte] at hexec
      split at hexec
      · rename_i o w'' hadd
        exact ⟨o, by rw [hadd, ← (Prod.mk.inj hexec).2]⟩
      · cases hexec
    obtain ⟨b, hbrings⟩ := hb.addAlone_brings hh hn hkeep hfile hadd
    have hnew : Reproduced s (script.replaceName (stem ++ e)) w'.tree :=
      hb.reproduced hh (hh.brings hbrings) (hb.sameFiles hbrings) hn hfamily.validDescriptor.notUp
        (Descriptor.pathOf_append he hfamily.extension.usable hfamily.nonempty) hkeep hfile hadd rfl
    refine ⟨hh.brings hbrings, hb.sameFiles hbrings, fun e' he' hkeep' hfile' => ?_⟩
    by_cases hsame : stem ++ e' = stem ++ e
    · rw [hsame]
      exact hnew
    · refine hdone.brings hb hfamily hh hexts hbrings e' ?_ hsame hkeep' hfile'
      rcases List.mem_cons.mp he' with rfl | he'
      · exact absurd rfl hsame
      · exact he'
  · have hleft : ScriptsReproduced s script stem [e] t := fun e' he' hkeep hfile => by
      obtain rfl := List.mem_singleton.mp he'
      exact absurd ⟨hkeep, hfile⟩ hadds
    obtain ⟨ms, hsame⟩ := execute_addScriptOf_same hsource he hleft ns
    obtain rfl := (Prod.mk.inj (hsame.symm.trans hexec)).2
    refine ⟨hh, .refl _ _ _, fun e' he' => ?_⟩
    rcases List.mem_cons.mp he' with rfl | he'
    · exact hleft e' (by simp)
    · exact hdone e' he'

/-- The loop brings all of the scripts up to date. -/
theorem Beside.addScriptsOf_run (hb : Beside s script cwd place)
    (hfamily : Family s stem) (hsource : LeadsToScripts source script stem)
    (hh : Hosts s script cwd place w.tree)
    (hexec : execute (s.addScriptsOf source) w = (.ok (), w')) :
    Hosts s script cwd place w'.tree ∧ SameFiles s place w.tree w'.tree ∧
      ScriptsReproduced s script stem Descriptor.scriptSuffixes w'.tree := by
  have hloop (exts : List String) : ∀ (done : List String) (w : World),
      (∀ e ∈ exts ++ done, e ∈ Descriptor.scriptSuffixes) → Hosts s script cwd place w.tree →
      ScriptsReproduced s script stem done w.tree →
      execute (forM exts (s.addScriptOf source)) w = (.ok (), w') →
      Hosts s script cwd place w'.tree ∧ SameFiles s place w.tree w'.tree ∧
        ScriptsReproduced s script stem (exts ++ done) w'.tree := by
    induction exts with
    | nil =>
      intro done w _ hh hdone hexec
      obtain rfl : w = w' := (Prod.mk.inj hexec).2
      exact ⟨hh, .refl _ _ _, hdone⟩
    | cons e exts ih =>
      intro done w hexts hh hdone hexec
      rw [List.forM_cons, execute_bind] at hexec
      split at hexec
      · rename_i w₁ hturn
        obtain ⟨hh₁, hfiles₁, hdone₁⟩ := hb.addScriptOf_step hfamily hsource hh (hexts e (by simp))
          (fun k hk => hexts k (by simp [hk])) hdone hturn
        have hswap (k : String) : k ∈ exts ++ e :: done ↔ k ∈ e :: exts ++ done := by
          simp only [List.cons_append, List.mem_append, List.mem_cons]
          tauto
        obtain ⟨hh', hfiles', hrest⟩ :=
          ih (e :: done) w₁ (fun k hk => hexts k ((hswap k).mp hk)) hh₁ hdone₁ hexec
        exact ⟨hh', hfiles₁.trans hfiles', fun k hk => hrest k ((hswap k).mpr hk)⟩
      · cases hexec
  rw [addScriptsOf_eq] at hexec
  have hall := hloop _ [] w (by simp) hh (fun _ h => by cases h) hexec
  rwa [List.append_nil] at hall

/-! ## With nothing in the way -/

/-- A file can be brought to each of the targets of a stem. -/
def TargetsReady (s : Syncer) (place : List String) (stem : String) (t : FileTree) : Prop :=
  ∀ e, Descriptor.PlainSuffix e → ∀ b,
    t.Ready (s.outputRoot.names ++ place ++ [stem ++ e]) (.file b)

theorem TargetsReady.brings {b : List UInt8} (h : TargetsReady s place stem t)
    (hbrings : Brings (s.outputRoot.names ++ place ++ [n]) (.file b) t t') :
    TargetsReady s place stem t' :=
  fun e he b' => (h e he b').brings hbrings

/-- Adding a neighbour that is a file does not fail. -/
theorem Beside.addAlone_ok (hb : Beside s script cwd place) (hfamily : Family s stem)
    (hh : Hosts s script cwd place t) (hready : TargetsReady s place stem t)
    (he : Descriptor.PlainSuffix e)
    (hkeep : s.excludes (script.replaceName (stem ++ e)).toString = false)
    (hfile : t.isFile (script.replaceName (stem ++ e)) = true) (ns : List Notice) :
    ∃ o w', execute (s.addAlone (script.replaceName (stem ++ e))) ⟨t, ns⟩ = (.ok o, w') := by
  have hn := he.validName hfamily.nonempty hfamily.noSlash
  have houtput := hb.outputPath hn.notUp
  rw [← hh.current] at houtput
  rw [execute_addAlone_file (w := ⟨t, ns⟩) hfile hkeep houtput]
  obtain ⟨content, hcontent⟩ := (hh.isFile_iff hn.notUp).mp hfile
  have hread := (hh.read_iff hn.notUp).mpr hcontent
  rcases execute_addFile_alike (sameDue_of_sameScript (.refl _ _ t) hread) hread
      (s.outputRoot.extend (place ++ [stem ++ e])) with
    ⟨⟨f, hunnamed⟩, -⟩ | ⟨outcome, ms, -, hupdate⟩
  · obtain ⟨d, hd⟩ := Descriptor.pathOf_isOk (p := script.replaceName (stem ++ e))
      (by rwa [Descriptor.replaceName_name]) hfamily.extension
    rw [hd] at hunnamed
    cases hunnamed
  · obtain ⟨r, t', hexec, -, -, -, hok⟩ := execute_update (w := ⟨t, ns ++ ms⟩) hh.sound
      (hb.target_normal hn) (by simp) (s.dueBytes t (script.replaceName (stem ++ e)) content)
    have hready' := hready e he (s.dueBytes t (script.replaceName (stem ++ e)) content)
    rw [List.append_assoc] at hready'
    obtain ⟨x, rfl⟩ := hok hready'
    exact ⟨outcome x, _, by rw [(hupdate ns).1, execute_bind_ok hexec]; rfl⟩

theorem Beside.addScriptOf_ok (hb : Beside s script cwd place) (hfamily : Family s stem)
    (hsource : LeadsToScripts source script stem) (hh : Hosts s script cwd place w.tree)
    (hready : TargetsReady s place stem w.tree) (he : e ∈ Descriptor.scriptSuffixes) :
    ∃ w', execute (s.addScriptOf source e) w = (.ok (), w') ∧ Hosts s script cwd place w'.tree ∧
      TargetsReady s place stem w'.tree := by
  by_cases hadds : s.excludes (script.replaceName (stem ++ e)).toString = false ∧
      w.tree.isFile (script.replaceName (stem ++ e)) = true
  · obtain ⟨hkeep, hfile⟩ := hadds
    obtain ⟨o, w', hadd⟩ := hb.addAlone_ok hfamily hh hready (Descriptor.plainSuffix_of_mem he)
      hkeep hfile w.notices
    obtain ⟨b, hbrings⟩ := hb.addAlone_brings hh (hfamily.validScript he) hkeep hfile hadd
    refine ⟨w', ?_, hh.brings hbrings, hready.brings hbrings⟩
    rw [addScriptOf, hsource e he, execute_bind, Work.execute_ofExcept_ok]
    simp only [execute_bind (x := Work.tree), Work.execute_tree, hfile, ↓reduceIte]
    rw [execute_bind_ok hadd]
    rfl
  · obtain ⟨ns, hsame⟩ := execute_addScriptOf_same (t := w.tree) (s := s) hsource he
      (fun e' he' hkeep hfile => by
        obtain rfl := List.mem_singleton.mp he'
        exact absurd ⟨hkeep, hfile⟩ hadds) w.notices
    exact ⟨_, hsame, hh, hready⟩

theorem Beside.addScriptsOf_ok (hb : Beside s script cwd place) (hfamily : Family s stem)
    (hsource : LeadsToScripts source script stem) (hh : Hosts s script cwd place w.tree)
    (hready : TargetsReady s place stem w.tree) :
    ∃ w', execute (s.addScriptsOf source) w = (.ok (), w') := by
  have hloop (exts : List String) : ∀ w : World, (∀ e ∈ exts, e ∈ Descriptor.scriptSuffixes) →
      Hosts s script cwd place w.tree → TargetsReady s place stem w.tree →
      ∃ w', execute (forM exts (s.addScriptOf source)) w = (.ok (), w') := by
    induction exts with
    | nil => exact fun w _ _ _ => ⟨w, rfl⟩
    | cons e exts ih =>
      intro w hexts hh hready
      obtain ⟨w₁, hturn, hh₁, hready₁⟩ :=
        hb.addScriptOf_ok hfamily hsource hh hready (hexts e (by simp))
      obtain ⟨w', hrest⟩ := ih w₁ (fun k hk => hexts k (by simp [hk])) hh₁ hready₁
      exact ⟨w', by rw [List.forM_cons, execute_bind_ok hturn, hrest]⟩
  rw [addScriptsOf_eq]
  exact hloop _ w (fun _ h => h) hh hready

end SceneSync.Syncer
