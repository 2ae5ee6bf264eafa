import Mathlib
import SceneSync.Proofs.Descriptor
import SceneSync.Proofs.FileTree.Walk
import SceneSync.Proofs.Synchronisation.Reading

/-!
# Beside a script

A script, its descriptor and the other scripts of that stand in one directory of the
watched one, however their common path is spelled. Bringing one of their targets up
to date leaves all of them as they are, and the other targets too.
-/

namespace SceneSync.Syncer

open FileTree

/-- The neighbours of a script lie at `place` in the watched directory, and it is not
the output directory. -/
structure Beside (s : Syncer) (script cwd : Path) (place : List String) : Prop where
  watch : s.watchRoot.Normal
  output : s.outputRoot.Normal
  apart : s.watchRoot.names ≠ s.outputRoot.names
  valid : ∀ n ∈ place, Path.ValidName n
  absolute : ∀ n, n ≠ ".." → Path.absolute cwd (script.replaceName n) =
    s.watchRoot.extend (place ++ [n])

/-- The tree leads from the directory of the script to its neighbours. -/
structure Hosts (s : Syncer) (script cwd : Path) (place : List String) (t : FileTree) : Prop where
  sound : t.Sound
  current : t.current = cwd
  walk : ∀ n, n ≠ ".." → Walk t (t.origin script) (script.names.dropLast ++ [n])
    (s.watchRoot.names ++ place ++ [n])

variable {s : Syncer} {script cwd : Path} {place : List String} {t t' : FileTree} {n m : String}

/-- The neighbours of a script below the watched directory. -/
theorem beside_of_isBelow (hwatch : s.watchRoot.Normal) (houtput : s.outputRoot.Normal)
    (hcwd : cwd.Normal) (hdirs : s.watchRoot.names ≠ s.outputRoot.names)
    (hscript : script.WellSpelled) (hname : Path.ValidName script.name)
    (hbelow : s.watchRoot.isBelow (Path.absolute cwd script) = true) :
    ∃ place, Beside s script cwd place := by
  obtain ⟨l, hl⟩ := Path.absolute_replaceName cwd script
  have habs := hl script.name hname.notUp
  rw [Descriptor.replaceName_self hname.nonempty] at habs
  obtain ⟨rest, hrest_ne, hrest⟩ := Path.exists_extend_of_isBelow hbelow
  obtain ⟨place, m, rfl⟩ := List.eq_nil_or_concat rest |>.resolve_left hrest_ne
  rw [habs, Path.extend, Path.mk.injEq] at hrest
  obtain ⟨hanchor, hrest⟩ := hrest
  obtain ⟨rfl, -⟩ : l = s.watchRoot.names ++ place ∧ [script.name] = [m] :=
    List.append_inj' (by simpa using hrest) rfl
  have hnormal := Path.absolute_normal hcwd hscript
  rw [habs] at hnormal
  refine ⟨place, hwatch, houtput, hdirs, fun n hn => hnormal.names n (by simp [hn]), ?_⟩
  intro n hn
  rw [hl n hn, hanchor]
  simp [Path.extend]

/-- Where one neighbour is a file all of them are found. -/
theorem hosts_of_isFile (hb : Beside s script cwd place) (ht : t.Sound) (hcwd : t.current = cwd)
    (hn : n ≠ "..") (hfile : t.isFile (script.replaceName n) = true) :
    Hosts s script cwd place t := by
  obtain ⟨l, -, hwalk, -⟩ := (isFile_iff_walk ht).mp hfile
  obtain ⟨k, -, hall⟩ := hwalk.neighbour hn
  refine ⟨ht, hcwd, fun m hm => ?_⟩
  have hwalk' : Walk t (t.origin (script.replaceName m)) (script.replaceName m).names (k ++ [m]) :=
    hall m hm
  have hlocation := hwalk'.eq_absolute ht
  rw [hcwd, hb.absolute m hm, Path.extend_names, ← List.append_assoc] at hlocation
  rw [← hlocation]
  exact hall m hm

theorem Hosts.read_iff (hh : Hosts s script cwd place t) (hn : n ≠ "..") {b : List UInt8} :
    t.read (script.replaceName n) = .ok b ↔
      t.get? (s.watchRoot.names ++ place ++ [n]) = some (.file b) := by
  rw [read_ok_iff_walk hh.sound]
  constructor
  · rintro ⟨l, hwalk, hl⟩
    have hwalk' := hh.walk n hn
    have heq : l = s.watchRoot.names ++ place ++ [n] := hwalk.eq_foldl.trans hwalk'.eq_foldl.symm
    rwa [← heq]
  · exact fun h => ⟨_, hh.walk n hn, h⟩

theorem Hosts.isFile_iff (hh : Hosts s script cwd place t) (hn : n ≠ "..") :
    t.isFile (script.replaceName n) = true ↔
      ∃ b, t.get? (s.watchRoot.names ++ place ++ [n]) = some (.file b) := by
  simp only [← hh.read_iff hn, isFile_iff_walk hh.sound, read_ok_iff_walk hh.sound]
  exact exists_comm

/-- No target of a neighbour is a neighbour. -/
theorem Beside.target_ne (hb : Beside s script cwd place) (n m : String) :
    s.watchRoot.names ++ place ++ [n] ≠ s.outputRoot.names ++ place ++ [m] := by
  intro h
  obtain ⟨hdirs, -⟩ := List.append_inj' h rfl
  obtain ⟨hroots, -⟩ := List.append_inj' hdirs rfl
  exact hb.apart hroots

theorem Beside.target_normal (hb : Beside s script cwd place) (hn : Path.ValidName n) :
    (s.outputRoot.extend (place ++ [n])).Normal :=
  hb.output.extend fun k hk => by
    rcases List.mem_append.mp hk with hk | hk
    · exact hb.valid k hk
    · rwa [List.mem_singleton.mp hk]

/-- A target brought up to date. -/
theorem Hosts.brings (hh : Hosts s script cwd place t) {e : Entry}
    (h : Brings (s.outputRoot.names ++ place ++ [n]) e t t') : Hosts s script cwd place t' := by
  refine ⟨h.sound, h.current.trans hh.current, fun m hm => ?_⟩
  have horigin : t'.origin script = t.origin script := by rw [origin, origin, h.current]
  rw [horigin]
  exact (hh.walk m hm).mono fun k hk => h.directory hk

/-- The directory of a script has the same files in both trees. -/
def SameFiles (s : Syncer) (place : List String) (t t' : FileTree) : Prop :=
  ∀ n b, t'.get? (s.watchRoot.names ++ place ++ [n]) = some (.file b) ↔
    t.get? (s.watchRoot.names ++ place ++ [n]) = some (.file b)

theorem SameFiles.refl (s : Syncer) (place : List String) (t : FileTree) : SameFiles s place t t :=
  fun _ _ => .rfl

theorem SameFiles.trans {t'' : FileTree} (h : SameFiles s place t t')
    (h' : SameFiles s place t' t'') : SameFiles s place t t'' :=
  fun n b => (h' n b).trans (h n b)

theorem SameFiles.isFile_iff (h : SameFiles s place t t') (hh : Hosts s script cwd place t)
    (hh' : Hosts s script cwd place t') (hn : n ≠ "..") :
    t'.isFile (script.replaceName n) = true ↔ t.isFile (script.replaceName n) = true := by
  rw [hh.isFile_iff hn, hh'.isFile_iff hn]
  exact exists_congr (h n)

/-- Bringing a target up to date changes no file beside the script. -/
theorem Beside.sameFiles (hb : Beside s script cwd place) {e : Entry}
    (h : Brings (s.outputRoot.names ++ place ++ [n]) e t t') : SameFiles s place t t' :=
  fun k _ => h.file_iff (hb.target_ne k n)

/-- What the two trees show of a script and its descriptor. -/
theorem SameFiles.sameScript (hfiles : SameFiles s place t t') (hh : Hosts s script cwd place t)
    (hh' : Hosts s script cwd place t')
    (hn : n ≠ "..") (hm : m ≠ "..") {extension : String}
    (hd : Descriptor.pathOf (script.replaceName n) extension = .ok (script.replaceName m))
    (hfile : t.isFile (script.replaceName n) = true) :
    SameScript (script.replaceName n) extension t t' := by
  have hread {k : String} (hk : k ≠ "..") (h : t.isFile (script.replaceName k) = true) :
      t'.read (script.replaceName k) = t.read (script.replaceName k) := by
    obtain ⟨b, hb⟩ := (hh.isFile_iff hk).mp h
    rw [(hh.read_iff hk).mpr hb, (hh'.read_iff hk).mpr ((hfiles k b).mpr hb)]
  refine ⟨hh'.current.trans hh.current.symm, hread hn hfile, fun d hd' => ?_, fun d hd' => ?_⟩
  all_goals obtain rfl := Except.ok.inj (hd.symm.trans hd')
  · rw [Bool.eq_iff_iff]
    exact hfiles.isFile_iff hh hh' hm
  · exact hread hm

end SceneSync.Syncer
