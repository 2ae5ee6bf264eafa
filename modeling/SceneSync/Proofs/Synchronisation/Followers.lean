import Mathlib
import SceneSync.Proofs.Synchronisation.DescriptorEvent

/-!
# The scripts that follow a descriptor

Which scripts are handled after a descriptor. A suffix of one point tells a descriptor,
and so does no suffix where the stem has none either. Then the scripts that follow are
exactly those whose descriptor it is; under any other suffix none of them follows.
-/

namespace SceneSync.Syncer

variable {s : Syncer} {p d script : Path}

/-- The scripts that are handled after a path: those under its stem, if it has the suffix
of the descriptors. -/
def followers (s : Syncer) (p : Path) : List Path :=
  if p.suffix == s.configuration.extension then
    Descriptor.scriptSuffixes.filterMap fun e => (p.withSuffix e).toOption
  else []

def follow (s : Syncer) (script : Path) : Work Unit := do
  if (← Work.tree).isFile script then
    let _ ← s.addAlone script

theorem withSuffix_script (hname : p.name ≠ "") {e : String}
    (he : e ∈ Descriptor.scriptSuffixes) :
    p.withSuffix e = .ok (p.replaceName ((Path.splitName p.name).1 ++ e)) := by
  have hempty : (p.name == "") = false := by simpa using hname
  simp only [Descriptor.scriptSuffixes, List.mem_cons, List.not_mem_nil, or_false] at he
  rcases he with rfl | rfl <;> simp [Path.withSuffix, hempty]

/-! ## Followers -/

/-- After a path that has a name its followers are handled, one after the other. -/
theorem followed_by (s : Syncer) (hname : d.name ≠ "") :
    (if d.suffix == s.configuration.extension then s.addScriptsOf d else pure ()) =
      (s.followers d).forM s.follow := by
  have hturn (e : String) (he : e ∈ Descriptor.scriptSuffixes) : s.addScriptOf d e =
      s.follow (d.replaceName ((Path.splitName d.name).1 ++ e)) := by
    rw [addScriptOf, withSuffix_script hname he]
    rfl
  rw [followers]
  split
  · rw [addScriptsOf_eq]
    simp only [Descriptor.scriptSuffixes, List.mem_cons, List.not_mem_nil, or_false] at hturn
    simp only [Descriptor.scriptSuffixes, List.filterMap_cons, List.filterMap_nil,
      withSuffix_script hname (e := ".js") (by decide),
      withSuffix_script hname (e := ".ts") (by decide), Except.toOption]
    simp only [List.forM_eq_forM, List.forM_cons, List.forM_nil, hturn _ (.inl rfl),
      hturn _ (.inr rfl)]
  · rfl

theorem mem_followers : script ∈ s.followers p ↔ p.suffix = s.configuration.extension ∧
    p.name ≠ "" ∧ ∃ e ∈ Descriptor.scriptSuffixes,
      script = p.replaceName ((Path.splitName p.name).1 ++ e) := by
  rw [followers]
  by_cases hname : p.name = ""
  · have hrefused (e : String) : (p.withSuffix e).toOption = none := by
      rw [Path.withSuffix]
      split
      · rfl
      · simp [hname, Except.toOption]
    simp [hrefused, hname]
  · split
    · rename_i hsuffix
      simp only [beq_iff_eq] at hsuffix
      simp only [hsuffix, ne_eq, hname, not_false_eq_true, true_and, List.mem_filterMap]
      refine exists_congr fun e => and_congr_right fun he => ?_
      rw [withSuffix_script hname he]
      simp [Except.toOption, eq_comm]
    · rename_i hsuffix
      simp only [beq_iff_eq] at hsuffix
      simp [hsuffix]

/-- What a name can have as its suffix can be exchanged for another. -/
theorem usable_suffix {n : String} (hslash : '/' ∉ n.toList) :
    Path.UsableSuffix (Path.splitName n).2 := by
  by_cases hne : (Path.splitName n).2 = ""
  · rw [hne]
    decide
  · obtain ⟨letters, hletters, hsome, hdots⟩ := Path.eq_of_suffix hne
    refine Descriptor.PlainSuffix.usable ⟨letters, hletters, hsome, hdots, fun hmem => hslash ?_⟩
    rw [← Path.stem_append_suffix n, hletters]
    simp [String.toList_append, hmem]

/-- Every follower has the path as its descriptor. -/
theorem pathOf_of_mem_followers (hslash : '/' ∉ d.name.toList) (h : script ∈ s.followers d) :
    script.suffix ∈ Descriptor.scriptSuffixes ∧
      Descriptor.pathOf script s.configuration.extension = .ok d := by
  obtain ⟨hsuffix, hname, e, he, rfl⟩ := mem_followers.mp h
  have hstem := Path.stem_ne_empty hname
  have husable : Path.UsableSuffix d.suffix := usable_suffix hslash
  have hwhole : (Path.splitName d.name).1 ++ d.suffix = d.name := Path.stem_append_suffix d.name
  refine ⟨by rwa [(Descriptor.plainSuffix_of_mem he).suffix hstem], ?_⟩
  rw [← hsuffix, Descriptor.pathOf_append he husable hstem, hwhole,
    Descriptor.replaceName_self hname]

/-- A script follows its descriptor exactly when the suffix tells the descriptor. -/
theorem mem_followers_of_pathOf (hscript : script.suffix ∈ Descriptor.scriptSuffixes)
    (hd : Descriptor.pathOf script s.configuration.extension = .ok d) :
    script ∈ s.followers d ↔ d.suffix = s.configuration.extension := by
  obtain ⟨stem, hstem, hname, rfl, -⟩ := Descriptor.pathOf_ok hscript hd
  have hnonempty : script.name ≠ "" := by
    rw [hname]
    simp [hstem]
  rw [mem_followers]
  refine ⟨fun h => h.1, fun hsuffix => ⟨hsuffix, ?_, script.suffix, hscript, ?_⟩⟩
  · rw [Descriptor.replaceName_name]
    simp [hstem]
  · have hsplit : (Path.splitName (stem ++ s.configuration.extension)).2 =
        s.configuration.extension := by
      rwa [Path.suffix, Descriptor.replaceName_name] at hsuffix
    have hwhole := Path.stem_append_suffix (stem ++ s.configuration.extension)
    rw [hsplit, String.append_left_inj] at hwhole
    rw [Descriptor.replaceName_name, hwhole, Descriptor.replaceName_replaceName, ← hname,
      Descriptor.replaceName_self hnonempty]

/-- Which suffixes tell the descriptor of a script. -/
theorem suffix_of_pathOf (hscript : script.suffix ∈ Descriptor.scriptSuffixes)
    {extension : String} (hd : Descriptor.pathOf script extension = .ok d) :
    d.suffix = extension ↔ Descriptor.PlainSuffix extension ∨
      extension = "" ∧ (Path.splitName (Path.splitName script.name).1).2 = "" := by
  obtain ⟨stem, hstem, hname, rfl, hslash⟩ := Descriptor.pathOf_ok hscript hd
  have hstem' : (Path.splitName script.name).1 = stem := by
    obtain ⟨letters, hletters, hsome, hdots, -⟩ := Descriptor.plainSuffix_of_mem hscript
    rw [hname, hletters, Path.splitName_append hstem hsome hdots]
  rw [hstem', Path.suffix, Descriptor.replaceName_name]
  constructor
  · intro hsuffix
    by_cases hext : extension = ""
    · subst hext
      exact .inr ⟨rfl, by rwa [String.append_empty] at hsuffix⟩
    · rw [← hsuffix] at hext
      obtain ⟨letters, hletters, hsome, hdots⟩ := Path.eq_of_suffix hext
      rw [hsuffix] at hletters
      refine .inl ⟨letters, hletters, hsome, hdots, fun hmem => hslash ?_⟩
      simp [hletters, String.toList_append, hmem]
  · rintro (hplain | ⟨rfl, hnone⟩)
    · have hsuffix := hplain.suffix (p := script) hstem
      rwa [Path.suffix, Descriptor.replaceName_name] at hsuffix
    · rwa [String.append_empty]

/-- A path and the scripts that are handled after it. A script follows its descriptor
exactly when the suffix of descriptors is a point with letters, or is empty and the
stem has no suffix of its own. A follower always has the path as its descriptor. -/
theorem followers_of_descriptor (s : Syncer) :
    (∀ d, d.name ≠ "" → (if d.suffix == s.configuration.extension then s.addScriptsOf d
      else pure ()) = (s.followers d).forM s.follow) ∧
    (∀ script d, script.suffix ∈ Descriptor.scriptSuffixes →
      Descriptor.pathOf script s.configuration.extension = .ok d →
      (script ∈ s.followers d ↔ d.suffix = s.configuration.extension) ∧
      (d.suffix = s.configuration.extension ↔
        Descriptor.PlainSuffix s.configuration.extension ∨ s.configuration.extension = "" ∧
          (Path.splitName (Path.splitName script.name).1).2 = "")) ∧
    ∀ d script, '/' ∉ d.name.toList → script ∈ s.followers d →
      script.suffix ∈ Descriptor.scriptSuffixes ∧
        Descriptor.pathOf script s.configuration.extension = .ok d := by
  refine ⟨fun d hname => followed_by s hname, fun script d hscript hd => ?_,
    fun d script hslash h => pathOf_of_mem_followers hslash h⟩
  exact ⟨mem_followers_of_pathOf hscript hd, suffix_of_pathOf hscript hd⟩

theorem followers_of_descriptor_scene :
    (Syncer.of (scenes []) (.ofString "/")).configuration.extension = ".scene" ∧
    Descriptor.pathOf (.ofString "w/Level.ts") ".scene" = .ok (.ofString "w/Level.scene") ∧
    (Path.ofString "w/Level.scene").suffix = ".scene" ∧
    .ofString "w/Level.ts" ∈
      (Syncer.of (scenes []) (.ofString "/")).followers (.ofString "w/Level.scene") ∧
    Descriptor.pathOf (.ofString "w/Level.js") ".scene" = .ok (.ofString "w/Level.scene") := by
  obtain ⟨-, hscripts, hfollowers⟩ :=
    followers_of_descriptor (Syncer.of (scenes []) (.ofString "/"))
  obtain ⟨hfollows, hsuffix⟩ := hscripts (.ofString "w/Level.ts") (.ofString "w/Level.scene")
    (by decide) (by decide)
  have hplain : Descriptor.PlainSuffix ".scene" :=
    ⟨"scene", by decide, by decide, by decide, by decide⟩
  have htold := hsuffix.mpr (.inl hplain)
  exact ⟨rfl, by decide, htold, hfollows.mpr htold,
    (hfollowers (.ofString "w/Level.scene") (.ofString "w/Level.js") (by decide) (by decide)).2⟩

/-- A suffix of two points is never met: the script does not follow its descriptor. -/
theorem two_points_follow_nothing :
    ∃ s script d, s.configuration.extension = ".scene.json" ∧
      script.suffix ∈ Descriptor.scriptSuffixes ∧
      Descriptor.pathOf script s.configuration.extension = .ok d ∧
      d.suffix ≠ s.configuration.extension ∧ script ∉ Syncer.followers s d :=
  ⟨Syncer.of { scenes [] with extension := ".scene.json" } (.ofString "/"),
    .ofString "w/Level.ts", .ofString "w/Level.scene.json", rfl, by decide, by decide, by decide,
    by decide⟩

end SceneSync.Syncer
