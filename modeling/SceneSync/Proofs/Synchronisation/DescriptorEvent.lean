import Mathlib
import SceneSync.Proofs.Synchronisation.ScriptsOf

/-!
# Descriptor events

What a script becomes depends on its descriptor, so handling the descriptor brings
the target of the script up to date as well.
-/

namespace SceneSync.Syncer

open FileTree

variable {s : Syncer} {script cwd : Path} {place : List String} {t : FileTree} {w w' : World}
  {stem e : String}

/-- The target of a script holds the bytes that adding the script would put there: it can
be added, and then there is nothing to write. -/
def UpToDate (s : Syncer) (source : Path) (t : FileTree) : Prop :=
  ∃ target bytes, s.outputPath (Path.absolute t.current source) = .ok target ∧
    t.read target = .ok bytes ∧
    ∀ follow n, ∃ o ns, execute (s.add source follow) ⟨t, n⟩ = (.ok o, ⟨t, n ++ ns⟩) ∧
      o.action = .skipped ∧ o.target = some target

/-- A descriptor event has been handled, from one world to the other: a descriptor that
is there and not excluded was added, or the target of one was removed. -/
inductive HandlesDescriptor (s : Syncer) (d : Path) (w w' : World) : Prop
  | added (o : Outcome) : s.excludes d.toString = false → w.tree.isFile d = true →
      execute (s.add d true) w = (.ok o, w') → HandlesDescriptor s d w w'
  | removed (o : Outcome) : execute (s.remove d) w = (.ok o, w') → o.action = .removed →
      HandlesDescriptor s d w w'

/-- When all scripts of a stem are up to date, each of them can be added as often as
anybody likes. -/
theorem ScriptsReproduced.upToDate (hfamily : Family s stem)
    (hall : ScriptsReproduced s script stem Descriptor.scriptSuffixes t)
    (he : e ∈ Descriptor.scriptSuffixes)
    (hkeep : s.excludes (script.replaceName (stem ++ e)).toString = false)
    (hfile : t.isFile (script.replaceName (stem ++ e)) = true) :
    UpToDate s (script.replaceName (stem ++ e)) t := by
  obtain ⟨target, bytes, htarget, hbytes, hagain⟩ := hall e he hkeep hfile
  refine ⟨target, bytes, htarget, hbytes, fun follow n => ?_⟩
  obtain ⟨o, ns, hadd, ho⟩ := hagain n
  rw [add, execute_bind, Work.execute_tree]
  simp only
  rw [execute_bind_ok hadd]
  split
  · have hsource := hfamily.leadsToScripts (Descriptor.plainSuffix_of_mem he) script
    obtain ⟨ms, hscripts⟩ := execute_addScriptsOf_same hsource hall (n ++ ns)
    refine ⟨o, ns ++ ms, ?_, ho⟩
    rw [execute_bind_ok hscripts, List.append_assoc]
    rfl
  · exact ⟨o, ns, rfl, ho⟩

/-- The descriptor was added, and its scripts followed. -/
theorem Beside.added_run (hb : Beside s script cwd place) (hfamily : Family s stem)
    (ht : w.tree.Sound) (hcwd : w.tree.current = cwd)
    (hkeep : s.excludes (script.replaceName (stem ++ s.configuration.extension)).toString = false)
    (hfile : w.tree.isFile (script.replaceName (stem ++ s.configuration.extension)) = true)
    {o : Outcome} (hexec : execute
      (s.add (script.replaceName (stem ++ s.configuration.extension)) true) w = (.ok o, w')) :
    Hosts s script cwd place w'.tree ∧ SameFiles s place w.tree w'.tree ∧
      ScriptsReproduced s script stem Descriptor.scriptSuffixes w'.tree := by
  have hvalid := hfamily.validDescriptor
  have hh := hosts_of_isFile hb ht hcwd hvalid.notUp hfile
  have hthere : w.tree.isThere (script.replaceName (stem ++ s.configuration.extension)) = true ∧
      w.tree.isDirectory (script.replaceName (stem ++ s.configuration.extension)) = false :=
    isThere_of_isFile hfile
  rw [add, execute_bind, Work.execute_tree] at hexec
  simp only [hfamily.extension.suffix hfamily.nonempty, hkeep, hthere, beq_self_eq_true,
    Bool.and_self, Bool.not_true, Bool.or_self, Bool.not_false, ↓reduceIte] at hexec
  rw [execute_bind] at hexec
  split at hexec
  · rename_i w₁ hadd
    obtain ⟨b, hbrings⟩ := hb.addAlone_brings hh hvalid hkeep hfile hadd
    rw [execute_bind] at hexec
    split at hexec
    · rename_i w₂ hscripts
      obtain rfl : w₂ = w' := (Prod.mk.inj hexec).2
      obtain ⟨hh', hfiles, hall⟩ := hb.addScriptsOf_run hfamily
        (hfamily.leadsToScripts hfamily.extension script) (hh.brings hbrings) hscripts
      exact ⟨hh', (hb.sameFiles hbrings).trans hfiles, hall⟩
    · cases hexec
  · cases hexec

/-- With nothing in the way of the targets a descriptor can be added. -/
theorem Beside.added_ok (hb : Beside s script cwd place) (hfamily : Family s stem)
    (ht : w.tree.Sound) (hcwd : w.tree.current = cwd) (hready : TargetsReady s place stem w.tree)
    (hkeep : s.excludes (script.replaceName (stem ++ s.configuration.extension)).toString = false)
    (hfile : w.tree.isFile (script.replaceName (stem ++ s.configuration.extension)) = true) :
    ∃ o w', execute (s.add (script.replaceName (stem ++ s.configuration.extension)) true) w =
      (.ok o, w') := by
  have hvalid := hfamily.validDescriptor
  have hh := hosts_of_isFile hb ht hcwd hvalid.notUp hfile
  obtain ⟨o, w₁, hadd⟩ := hb.addAlone_ok hfamily hh hready hfamily.extension hkeep hfile w.notices
  obtain ⟨b, hbrings⟩ := hb.addAlone_brings hh hvalid hkeep hfile hadd
  rw [add, execute_bind, Work.execute_tree]
  simp only
  rw [execute_bind_ok hadd]
  split
  · obtain ⟨w', hscripts⟩ := hb.addScriptsOf_ok hfamily
      (hfamily.leadsToScripts hfamily.extension script) (hh.brings hbrings) (hready.brings hbrings)
    exact ⟨o, w', by rw [execute_bind_ok hscripts]; rfl⟩
  · exact ⟨o, w₁, rfl⟩

/-- The target of the descriptor was removed, and its scripts followed. -/
theorem Beside.removed_run (hb : Beside s script cwd place) (hfamily : Family s stem)
    (ht : w.tree.Sound) (hcwd : w.tree.current = cwd) {o : Outcome} (hexec : execute
      (s.remove (script.replaceName (stem ++ s.configuration.extension))) w = (.ok o, w'))
    (hremoved : o.action = .removed) :
    ScriptsReproduced s script stem Descriptor.scriptSuffixes w'.tree := by
  have hvalid := hfamily.validDescriptor
  have hkeep :
      s.excludes (script.replaceName (stem ++ s.configuration.extension)).toString = false := by
    by_contra hexcluded
    rw [remove, if_pos (by simpa using hexcluded)] at hexec
    obtain rfl : _ = o := Except.ok.inj (Prod.mk.inj hexec).1
    cases hremoved
  have houtput := hb.outputPath hvalid.notUp
  rw [← hcwd] at houtput
  rw [execute_remove_target ht (hb.target_normal hvalid) hkeep houtput] at hexec
  split at hexec
  · have hsource := hfamily.leadsToScripts hfamily.extension script
    have herased := ht.erase (s.outputRoot.extend
      (place ++ [stem ++ s.configuration.extension])).names
    rw [execute_bind, Work.execute_notify] at hexec
    simp only [hfamily.extension.suffix hfamily.nonempty, beq_self_eq_true, ↓reduceIte] at hexec
    rw [execute_bind] at hexec
    split at hexec
    · rename_i w₁ hscripts
      obtain rfl : w₁ = w' := (Prod.mk.inj hexec).2
      by_cases hfiles : ∃ e ∈ Descriptor.scriptSuffixes, (w.tree.erase (s.outputRoot.extend
          (place ++ [stem ++ s.configuration.extension])).names).isFile
            (script.replaceName (stem ++ e)) = true
      · obtain ⟨e, he, hfile⟩ := hfiles
        have hh := hosts_of_isFile hb herased (by simpa using hcwd)
          (hfamily.validScript he).notUp hfile
        exact (hb.addScriptsOf_run hfamily hsource hh hscripts).2.2
      · -- Without a script the loop has nothing to do.
        have hnone : ScriptsReproduced s script stem Descriptor.scriptSuffixes _ :=
          fun e he _ hfile => absurd ⟨e, he, hfile⟩ hfiles
        obtain ⟨ns, hsame⟩ := execute_addScriptsOf_same hsource hnone _
        obtain rfl := (Prod.mk.inj (hsame.symm.trans hscripts)).2
        exact hnone
    · cases hexec
  · obtain rfl : _ = o := Except.ok.inj (Prod.mk.inj hexec).1
    cases hremoved

/-- A descriptor event leaves no stale script: once it has been handled, each script of
the descriptor that is there and not excluded is up to date. -/
theorem descriptor_event_updates_script {c : Configuration} {w w' : World} {script d : Path}
    {letters : String} (hwatch : c.watchDir.WellSpelled) (houtput : c.outputDir.WellSpelled)
    (hscript : script.WellSpelled) (ht : w.tree.Sound)
    (hdirs : (Syncer.of c w.tree.current).watchRoot.names ≠
      (Syncer.of c w.tree.current).outputRoot.names)
    (hext : c.extension = "." ++ letters) (hletters : letters ≠ "") (hdots : '.' ∉ letters.toList)
    (hsuffix : script.suffix ∈ Descriptor.scriptSuffixes)
    (hbelow : (Syncer.of c w.tree.current).watchRoot.isBelow
      (Path.absolute w.tree.current script) = true)
    (hkeep : (Syncer.of c w.tree.current).excludes script.toString = false)
    (hd : Descriptor.pathOf script c.extension = .ok d)
    (hevent : HandlesDescriptor (Syncer.of c w.tree.current) d w w')
    (hfile : w'.tree.isFile script = true) :
    UpToDate (Syncer.of c w.tree.current) script w'.tree := by
  obtain ⟨stem, hstem, hname, rfl, hslash⟩ := Descriptor.pathOf_ok hsuffix hd
  have hvalid : Path.ValidName script.name := by
    refine hscript.validName fun hnone => ?_
    rw [hnone] at hsuffix
    revert hsuffix
    decide
  have hself : script.replaceName (stem ++ script.suffix) = script := by
    rw [← hname, Descriptor.replaceName_self hvalid.nonempty]
  have hfamily : Family (Syncer.of c w.tree.current) stem := by
    refine ⟨hstem, fun hmem => hvalid.noSlash ?_, letters, hext, hletters, hdots, fun hmem => ?_⟩
    · rw [hname, String.toList_append]
      exact List.mem_append_left _ hmem
    · rw [hext, String.toList_append] at hslash
      exact hslash (List.mem_append_right _ hmem)
  obtain ⟨place, hb⟩ := beside_of_isBelow (s := Syncer.of c w.tree.current)
    (Path.absolute_normal ht.current hwatch) (Path.absolute_normal ht.current houtput) ht.current
    hdirs hscript hvalid hbelow
  have hall : ScriptsReproduced (Syncer.of c w.tree.current) script stem
      Descriptor.scriptSuffixes w'.tree := by
    cases hevent with
    | added o hkeep' hfile' hexec => exact (hb.added_run hfamily ht rfl hkeep' hfile' hexec).2.2
    | removed o hexec hremoved => exact hb.removed_run hfamily ht rfl hexec hremoved
  rw [← hself] at hkeep hfile ⊢
  exact hall.upToDate hfamily hsuffix hkeep hfile

def scenes (exclude : List String) : Configuration where
  watchDir := .ofString "/w"
  outputDir := .ofString "/o"
  conversionDir := some (.ofString "/w")
  exclude := exclude
  context := "scene"
  sceneType := "Phaser.Scene"
  extension := ".scene"
  maxDepth := 100

/-- A script with its descriptor. -/
def sceneWorld : World where
  tree := ⟨.ofString "/", [(["w"], .directory),
    (["w", "a.js"], .file ("function f(){}".toList.map fun c => c.val.toUInt8)),
    (["w", "a.scene"], .file [123, 125])]⟩
  notices := []

theorem sceneWorld_sound : sceneWorld.tree.Sound := by
  refine sound_of_entries (by decide) fun x hx => ?_
  simp only [sceneWorld, List.mem_cons, List.not_mem_nil, or_false] at hx
  rcases hx with rfl | rfl | rfl
  · exact ⟨by simp, by decide, by decide⟩
  · exact ⟨by simp, by decide, by decide⟩
  · exact ⟨by simp, by decide, by decide⟩

theorem descriptor_event_updates_script_scene :
    ∃ w', HandlesDescriptor (Syncer.of (scenes []) sceneWorld.tree.current)
        (.ofString "/w/a.scene") sceneWorld w' ∧
      w'.tree.isFile (.ofString "/w/a.js") = true ∧
      UpToDate (Syncer.of (scenes []) sceneWorld.tree.current) (.ofString "/w/a.js") w'.tree := by
  have hb : Beside (Syncer.of (scenes []) sceneWorld.tree.current) (.ofString "/w/a.js")
      sceneWorld.tree.current [] := by
    refine ⟨by decide, by decide, by decide, by simp, fun n hn => ?_⟩
    have hpath : (Path.ofString "/w/a.js").replaceName n = ⟨.root, ["w"] ++ [n]⟩ := rfl
    have hroot : (Syncer.of (scenes []) sceneWorld.tree.current).watchRoot = ⟨.root, ["w"]⟩ := by
      decide
    rw [hpath, hroot]
    simp [Path.absolute, Path.join, Path.isAbsolute, Path.resolveStep, Path.extend, hn]
  have hfamily : Family (Syncer.of (scenes []) sceneWorld.tree.current) "a" :=
    ⟨by decide, by decide, "scene", by decide, by decide, by decide, by decide⟩
  have hready : TargetsReady (Syncer.of (scenes []) sceneWorld.tree.current) [] "a"
      sceneWorld.tree := by
    have hroot : (Syncer.of (scenes []) sceneWorld.tree.current).outputRoot.names = ["o"] := by
      decide
    intro e _ b
    rw [hroot]
    have hnone : sceneWorld.tree.get? ["o", "a" ++ e] = none := by
      rw [get?_of_ne_nil _ (by simp)]
      simp [sceneWorld, List.lookup_cons]
    refine ⟨fun m hm hne => ?_, fun e' he' => ?_⟩
    · rcases List.prefix_cons_iff.mp hm with rfl | ⟨m₁, rfl, hm₁⟩
      · exact .inr rfl
      · rcases List.prefix_cons_iff.mp hm₁ with rfl | ⟨m₂, rfl, hm₂⟩
        · exact .inl (by decide)
        · obtain rfl := List.prefix_nil.mp hm₂
          exact absurd rfl hne
    · cases hnone.symm.trans he'
  have hfile : sceneWorld.tree.isFile (.ofString "/w/a.scene") = true := by
    rw [isFile_iff sceneWorld_sound (by decide)]
    exact ⟨[123, 125], by decide⟩
  obtain ⟨o, w', hexec⟩ := hb.added_ok hfamily sceneWorld_sound rfl hready (by decide) hfile
  obtain ⟨hh', hfiles, -⟩ := hb.added_run hfamily sceneWorld_sound rfl (by decide) hfile hexec
  have hh := hosts_of_isFile (n := "a.scene") hb sceneWorld_sound rfl (by decide) hfile
  have hthere : sceneWorld.tree.isFile (.ofString "/w/a.js") = true := by
    rw [isFile_iff sceneWorld_sound (by decide)]
    exact ⟨_, rfl⟩
  have hscript := (hfiles.isFile_iff (n := "a.js") hh hh' (by decide)).mpr hthere
  have hevent : HandlesDescriptor (Syncer.of (scenes []) sceneWorld.tree.current)
      (.ofString "/w/a.scene") sceneWorld w' := .added o (by decide) hfile hexec
  exact ⟨w', hevent, hscript, descriptor_event_updates_script (Path.wellSpelled_ofString _)
    (Path.wellSpelled_ofString _) (Path.wellSpelled_ofString _) sceneWorld_sound (by decide)
    (show (scenes []).extension = "." ++ "scene" by decide) (by decide) (by decide) (by decide)
    (by decide) (by decide) (by decide) hevent hscript⟩

/-- An excluded descriptor is passed over, and its script stays behind. So it does when
there is nothing in the output to remove for a descriptor that is gone. -/
theorem passed_over_descriptor_leaves_script :
    sceneWorld.tree.Sound ∧ sceneWorld.tree.isFile (.ofString "/w/a.js") = true ∧
    sceneWorld.tree.isFile (.ofString "/w/a.scene") = true ∧
    Descriptor.pathOf (.ofString "/w/a.js") ".scene" = .ok (.ofString "/w/a.scene") ∧
    (∃ s o, s = Syncer.of (scenes [".scene"]) sceneWorld.tree.current ∧
      s.excludes "/w/a.js" = false ∧
      execute (s.add (.ofString "/w/a.scene") true) sceneWorld = (.ok o, sceneWorld) ∧
      ¬ UpToDate s (.ofString "/w/a.js") sceneWorld.tree) ∧
    ∃ s o w, s = Syncer.of (scenes []) sceneWorld.tree.current ∧
      w = { sceneWorld with tree := sceneWorld.tree.erase ["w", "a.scene"] } ∧
      s.excludes "/w/a.js" = false ∧
      execute (s.remove (.ofString "/w/a.scene")) w = (.ok o, w) ∧
      ¬ UpToDate s (.ofString "/w/a.js") w.tree := by
  have hstale (exclude : List String) (t : FileTree) (ht : t.Sound)
      (hcwd : t.current = .ofString "/") (hnone : t.get? ["o", "a.js"] = none) :
      ¬ UpToDate (Syncer.of (scenes exclude) (.ofString "/")) (.ofString "/w/a.js") t := by
    rintro ⟨target, bytes, htarget, hbytes, -⟩
    have houtput : (Syncer.of (scenes exclude) (.ofString "/")).outputPath
        (Path.absolute t.current (.ofString "/w/a.js")) = .ok (.ofString "/o/a.js") := by
      rw [hcwd]
      rfl
    obtain rfl := Except.ok.inj (houtput.symm.trans htarget)
    have hread := (read_ok_iff ht (by decide)).mp hbytes
    cases hnone.symm.trans hread
  have hsound := sceneWorld_sound.erase ["w", "a.scene"]
  refine ⟨sceneWorld_sound, (isFile_iff sceneWorld_sound (by decide)).mpr ⟨_, rfl⟩,
    (isFile_iff sceneWorld_sound (by decide)).mpr ⟨[123, 125], by decide⟩, rfl,
    ⟨_, ⟨.ofString "/w/a.scene", .ignored, none, none⟩, rfl, by decide, ?_, ?_⟩,
    ⟨_, ⟨.ofString "/w/a.scene", .ignored, some (.ofString "/o/a.scene"), none⟩, _, rfl, rfl,
      by decide, ?_, ?_⟩⟩
  · rw [add, execute_bind, Work.execute_tree]
    simp only
    rw [addAlone, bind_assoc, execute_bind, Work.execute_tree]
    have hexcluded : (Syncer.of (scenes [".scene"]) sceneWorld.tree.current).excludes
        (Path.ofString "/w/a.scene").toString = true := by decide
    simp [hexcluded]
  · exact hstale _ _ sceneWorld_sound rfl (by decide)
  · rw [execute_remove_target hsound (by decide : Path.Normal (.ofString "/o/a.scene")) (by decide)
      rfl]
    rfl
  · exact hstale _ _ hsound rfl (by decide)

end SceneSync.Syncer
