import Mathlib
import SceneSync.Proofs.Eligibility
import SceneSync.Proofs.Script.PlainConversion
import SceneSync.Proofs.Synchronisation.Filling
import SceneSync.Proofs.Synchronisation.Report

/-!
# Full passes

A full pass that ends without a failure has filled the target of everything that is
not excluded, and touched nothing else. With room for all of it in the output the pass
does end so.
-/

namespace SceneSync.Syncer

open FileTree

variable {s : Syncer} {t₀ t t' : FileTree} {w w' : World} {p q : List String} {depth : Nat}

/-- Everything that has been put at a target is there still. -/
def Stays (s : Syncer) (t₀ t t' : FileTree) : Prop := ∀ q, Filled s t₀ t q → Filled s t₀ t' q

/-- In the pass no descriptor is followed. -/
theorem Underway.execute_add (hs : s.Separate) (hu : Underway s t₀ w.tree)
    (hp : ∀ n ∈ p, Path.ValidName n) {follow : Bool}
    (hfollow : s.source? t₀ p = some .directory ∨ follow = false) :
    execute (s.add (s.sourceAt p) follow) w = execute (s.addAlone (s.sourceAt p)) w := by
  have hstop : (follow && (s.sourceAt p).suffix == s.configuration.extension &&
      !(s.excludes (s.sourceAt p).toString || !w.tree.isThere (s.sourceAt p) ||
        w.tree.isDirectory (s.sourceAt p))) = false := by
    rcases hfollow with hdir | rfl
    · have hdir' := (isDirectory_iff hu.sound (hs.source_normal hp)).mpr ((hu.source p).trans hdir)
      simp [hdir']
    · simp
  rw [add, execute_bind, Work.execute_tree]
  simp only [hstop, Bool.false_eq_true, ↓reduceIte]
  rw [execute_bind]
  cases execute (s.addAlone (s.sourceAt p)) w with
  | mk r w' => cases r <;> rfl

/-- A path has been added in the pass. -/
theorem Underway.addOrWarn_run (hs : s.Separate) (ht₀ : t₀.Sound)
    (hroot : s.source? t₀ [] = some .directory) (hu : Underway s t₀ w.tree)
    (hp : ∀ n ∈ p, Path.ValidName n) {follow : Bool}
    (hfollow : s.source? t₀ p = some .directory ∨ follow = false) {o : Outcome}
    (hexec : execute (s.addOrWarn (s.sourceAt p) follow) w = (.ok o, w')) (hfine : Fine o) :
    Underway s t₀ w'.tree ∧ Stays s t₀ w.tree w'.tree ∧
      o.source = s.sourceAt p ∧ Filled s t₀ w'.tree p := by
  obtain ⟨r, w₁, hadd, hadded⟩ := hu.added hs ht₀ hroot hp
  rw [← hu.execute_add hs hp hfollow] at hadd
  cases r with
  | ok o' =>
    rw [addOrWarn, execute_tryCatch_ok hadd, Prod.mk.injEq, Except.ok.injEq] at hexec
    obtain ⟨rfl, rfl⟩ := hexec
    obtain ⟨hsource, -, hfills, hdistinct⟩ := hadded.done o' rfl
    exact ⟨hfills.underway hs hu hdistinct, fun q => hfills.keeps, hsource, hfills.filled_self⟩
  | error f =>
    rw [addOrWarn, execute_tryCatch_error hadd] at hexec
    split at hexec
    · cases hexec
    · simp only [warnFailed, execute_bind, Work.execute_notify, execute_pure] at hexec
      obtain rfl := Except.ok.inj (Prod.mk.inj hexec).1
      cases hfine rfl

/-- With nothing in the way a path is added. -/
theorem Underway.addOrWarn_ok (hs : s.Separate) (ht₀ : t₀.Sound)
    (hroot : s.source? t₀ [] = some .directory)
    (hext : Descriptor.PlainSuffix s.configuration.extension) (hu : Underway s t₀ w.tree)
    (hroom : Roomy s t₀ w.tree) (hp : ∀ n ∈ p, Path.ValidName n) {follow : Bool}
    (hfollow : s.source? t₀ p = some .directory ∨ follow = false) :
    ∃ o w', execute (s.addOrWarn (s.sourceAt p) follow) w = (.ok o, w') ∧
      (Underway s t₀ w'.tree ∧ Roomy s t₀ w'.tree) ∧ Fine o := by
  obtain ⟨r, w', hadd, hadded⟩ := hu.added hs ht₀ hroot hp
  rw [← hu.execute_add hs hp hfollow] at hadd
  obtain ⟨o, rfl⟩ := hadded.succeeds hext (hroom p)
  obtain ⟨-, hfine, hfills, hdistinct⟩ := hadded.done o rfl
  exact ⟨o, w', by rw [addOrWarn, execute_tryCatch_ok hadd],
    ⟨hfills.underway hs hu hdistinct, hfills.roomy ht₀ hroom⟩, hfine⟩

/-! ## Level by level -/

/-- The walk is deep enough for everything in the watched directory. -/
theorem Underway.length_lt (hu : Underway s t₀ t) (hp : (s.source? t₀ p).isSome) :
    p.length < t.entries.length + 1 := by
  have hlen := hu.sound.length_le (l := s.watchRoot.names ++ p) (by rwa [← hu.source p] at hp)
  rw [List.length_append] at hlen
  omega

/-- The names under which a level is walked are those from the beginning. -/
theorem Underway.levelNames (hs : s.Separate) (hu : Underway s t₀ t)
    (hp : ∀ n ∈ p, Path.ValidName n) (hdir : s.source? t₀ p = some .directory) :
    LevelNames s t₀ p (s.keptNames t p) (s.otherNames t p) := by
  have hdir' := (hu.source p).trans hdir
  refine ⟨fun n => ?_, fun n => ?_, keptNames_nodup hu.distinct p, otherNames_nodup hu.distinct p⟩
  · rw [mem_keptNames hs hu.sound hp hdir', hu.source]
  · rw [mem_otherNames hs hu.sound hp hdir', hu.source]

/-- The names of a level have been added. -/
theorem Underway.addLevel_run (hs : s.Separate) (ht₀ : t₀.Sound)
    (hroot : s.source? t₀ [] = some .directory) (hu : Underway s t₀ w.tree) {names : List String}
    (hnames : ∀ n ∈ names, (s.source? t₀ (p ++ [n])).isSome) {follow : Bool}
    (hfollow : ∀ n ∈ names, s.source? t₀ (p ++ [n]) = some .directory ∨ follow = false)
    {os : List Outcome} (hfine : ∀ o ∈ os, Fine o) (hexec : execute
      (names.mapM fun n => s.addOrWarn (s.sourceAt (p ++ [n])) follow) w = (.ok os, w')) :
    Underway s t₀ w'.tree ∧ Stays s t₀ w.tree w'.tree ∧
      List.Forall₂ (fun n o => o.source = s.sourceAt (p ++ [n]) ∧ Filled s t₀ w'.tree (p ++ [n]))
        names os :=
  mapM_run (I := fun w : World => Underway s t₀ w.tree)
    (R := fun w w' : World => Stays s t₀ w.tree w'.tree)
    (D := fun n (o : Outcome) (w : World) =>
      o.source = s.sourceAt (p ++ [n]) ∧ Filled s t₀ w.tree (p ++ [n]))
    (fun _ _ h => h) (fun _ _ _ h h' q hq => h' q (h q hq))
    (fun _ _ _ _ hdone hlater => ⟨hdone.1, hlater _ hdone.2⟩)
    (fun n hn o ho _ _ hw hone => hw.addOrWarn_run hs ht₀ hroot (valid_snoc ht₀ (hnames n hn))
      (hfollow n hn) hone (hfine o ho)) hu hexec

/-- What lies below a directory has been added, as deep as the walk goes. -/
theorem Underway.addBelow_run (hs : s.Separate) (ht₀ : t₀.Sound)
    (hroot : s.source? t₀ [] = some .directory) (hu : Underway s t₀ w.tree)
    (hp : ∀ n ∈ p, Path.ValidName n) (hdir : s.source? t₀ p = some .directory)
    (hopen : p = [] ∨ s.Keeps p) {os : List Outcome} (hfine : ∀ o ∈ os, Fine o)
    (hexec : execute (s.addBelow depth (s.sourceAt p)) w = (.ok os, w')) :
    Underway s t₀ w'.tree ∧ Stays s t₀ w.tree w'.tree ∧ Reports s t₀ p depth os ∧
      ∀ o ∈ os, ∀ q, o.source = s.sourceAt q → Filled s t₀ w'.tree q := by
  induction depth generalizing p w w' os with
  | zero =>
    obtain ⟨rfl, rfl⟩ : [] = os ∧ w = w' := by simpa [addBelow] using hexec
    refine ⟨hu, fun _ h => h, ⟨fun path => ?_, .nil⟩, by simp⟩
    simp only [List.map_nil, List.not_mem_nil, false_iff]
    rintro ⟨r, -, hne, hlen, -⟩
    exact hne (List.eq_nil_of_length_eq_zero (by omega))
  | succ depth ih =>
    have hlevel := hu.levelNames hs hp hdir
    rw [execute_addBelow_names, addLevel] at hexec
    obtain ⟨first, w₁, hfirst, hexec⟩ := execute_bind_eq_ok.mp hexec
    obtain ⟨second, w₂, hsecond, hexec⟩ := execute_bind_eq_ok.mp hexec
    obtain ⟨below, w₃, hbelow, hexec⟩ := execute_bind_eq_ok.mp hexec
    obtain ⟨rfl, rfl⟩ : first ++ second ++ below.flatten = os ∧ w₃ = w' := by
      simpa using hexec
    obtain ⟨hu₁, hstays₁, hdone₁⟩ := hu.addLevel_run hs ht₀ hroot
      (fun n hn => (hlevel.listed_kept hn).isSome hroot) (fun n hn => .inl ((hlevel.mem_kept n).mp hn).1)
      (fun o ho => hfine o (by simp [ho])) hfirst
    obtain ⟨hu₂, hstays₂, hdone₂⟩ := hu₁.addLevel_run hs ht₀ hroot
      (fun n hn => ((hlevel.mem_others n).mp hn).1) (fun _ _ => .inr rfl)
      (fun o ho => hfine o (by simp [ho])) hsecond
    obtain ⟨hu₃, hstays₃, hdone₃⟩ := mapM_run (I := fun w : World => Underway s t₀ w.tree)
      (R := fun w w' : World => Stays s t₀ w.tree w'.tree)
      (D := fun n (os : List Outcome) (w : World) => Reports s t₀ (p ++ [n]) depth os ∧
        ∀ o ∈ os, ∀ q, o.source = s.sourceAt q → Filled s t₀ w.tree q)
      (fun _ _ h => h) (fun _ _ _ h h' q hq => h' q (h q hq))
      (fun _ _ _ _ hdone hlater => ⟨hdone.1, fun o ho q hq => hlater q (hdone.2 o ho q hq)⟩)
      (fun n hn os hos w w' hw hone => by
        obtain ⟨hdirn, hkeepn⟩ := (hlevel.mem_kept n).mp hn
        have hvalid := valid_snoc ht₀ ((hlevel.listed_kept hn).isSome hroot)
        rw [execute_descend (isLink_eq_false hw.sound _)] at hone
        refine ih hw hvalid hdirn (.inr hkeepn) (fun o ho => hfine o ?_) hone
        exact List.mem_append_right _ (List.mem_flatten_of_mem hos ho))
      hu₂ hbelow
    refine ⟨hu₃, fun q hq => hstays₃ q (hstays₂ q (hstays₁ q hq)), ?_, ?_⟩
    · exact hlevel.reports hs ht₀ hroot hopen (hdone₁.imp fun _ _ h => h.1)
        (hdone₂.imp fun _ _ h => h.1) (hdone₃.imp fun _ _ h => h.1)
    · intro o ho q hq
      rw [List.mem_append, List.mem_append, List.mem_flatten] at ho
      rcases ho with (ho | ho) | ⟨os, hos, ho⟩
      · obtain ⟨n, -, hsource, hfilled⟩ := exists_left_of_mem hdone₁ ho
        obtain rfl := sourceAt_inj.mp (hsource.symm.trans hq)
        exact hstays₃ _ (hstays₂ _ hfilled)
      · obtain ⟨n, -, hsource, hfilled⟩ := exists_left_of_mem hdone₂ ho
        obtain rfl := sourceAt_inj.mp (hsource.symm.trans hq)
        exact hstays₃ _ hfilled
      · obtain ⟨n, -, -, hdone⟩ := exists_left_of_mem hdone₃ hos
        exact hdone o ho q hq

theorem Underway.addLevel_ok (hs : s.Separate) (ht₀ : t₀.Sound)
    (hroot : s.source? t₀ [] = some .directory)
    (hext : Descriptor.PlainSuffix s.configuration.extension) (hu : Underway s t₀ w.tree)
    (hroom : Roomy s t₀ w.tree) {names : List String}
    (hnames : ∀ n ∈ names, (s.source? t₀ (p ++ [n])).isSome) {follow : Bool}
    (hfollow : ∀ n ∈ names, s.source? t₀ (p ++ [n]) = some .directory ∨ follow = false) :
    ∃ os w', execute (names.mapM fun n => s.addOrWarn (s.sourceAt (p ++ [n])) follow) w =
      (.ok os, w') ∧ (Underway s t₀ w'.tree ∧ Roomy s t₀ w'.tree) ∧ ∀ o ∈ os, Fine o :=
  mapM_ok (I := fun w : World => Underway s t₀ w.tree ∧ Roomy s t₀ w.tree)
    (fun n hn _ hw => hw.1.addOrWarn_ok hs ht₀ hroot hext hw.2 (valid_snoc ht₀ (hnames n hn))
      (hfollow n hn)) ⟨hu, hroom⟩

/-- With room for what is due the walk does not fail. -/
theorem Underway.addBelow_ok (hs : s.Separate) (ht₀ : t₀.Sound)
    (hroot : s.source? t₀ [] = some .directory)
    (hext : Descriptor.PlainSuffix s.configuration.extension) (hu : Underway s t₀ w.tree)
    (hroom : Roomy s t₀ w.tree) (hp : ∀ n ∈ p, Path.ValidName n)
    (hdir : s.source? t₀ p = some .directory) (depth : Nat) :
    ∃ os w', execute (s.addBelow depth (s.sourceAt p)) w = (.ok os, w') ∧
      (Underway s t₀ w'.tree ∧ Roomy s t₀ w'.tree) ∧ ∀ o ∈ os, Fine o := by
  induction depth generalizing p w with
  | zero => exact ⟨[], w, rfl, ⟨hu, hroom⟩, by simp⟩
  | succ depth ih =>
    have hlevel := hu.levelNames hs hp hdir
    obtain ⟨first, w₁, hfirst, ⟨hu₁, hroom₁⟩, hfine₁⟩ := hu.addLevel_ok hs ht₀ hroot hext hroom
      (fun n hn => (hlevel.listed_kept hn).isSome hroot)
      (fun n hn => .inl ((hlevel.mem_kept n).mp hn).1)
    obtain ⟨second, w₂, hsecond, ⟨hu₂, hroom₂⟩, hfine₂⟩ := hu₁.addLevel_ok hs ht₀ hroot hext hroom₁
      (fun n hn => ((hlevel.mem_others n).mp hn).1) (fun _ _ => .inr rfl)
    have hwalk : ∃ below w', execute ((s.keptNames w.tree p).mapM fun n => do
          if (← Work.tree).isLink (s.sourceAt (p ++ [n])) then return []
          s.addBelow depth (s.sourceAt (p ++ [n]))) w₂ = (.ok below, w') ∧
        (Underway s t₀ w'.tree ∧ Roomy s t₀ w'.tree) ∧ ∀ os ∈ below, ∀ o ∈ os, Fine o := by
      refine mapM_ok (I := fun w : World => Underway s t₀ w.tree ∧ Roomy s t₀ w.tree)
        (fun n hn w hw => ?_) ⟨hu₂, hroom₂⟩
      have hvalid := valid_snoc ht₀ ((hlevel.listed_kept hn).isSome hroot)
      rw [execute_descend (isLink_eq_false hw.1.sound _)]
      exact ih hw.1 hw.2 hvalid ((hlevel.mem_kept n).mp hn).1
    obtain ⟨below, w', hbelow, hinv, hfine₃⟩ := hwalk
    refine ⟨first ++ second ++ below.flatten, w', ?_, hinv, fun o ho => ?_⟩
    · rw [execute_addBelow_names, addLevel, execute_bind_ok hfirst, execute_bind_ok hsecond,
        execute_bind_ok hbelow, execute_pure]
    · rw [List.mem_append, List.mem_append, List.mem_flatten] at ho
      rcases ho with (ho | ho) | ⟨os, hos, ho⟩
      · exact hfine₁ o ho
      · exact hfine₂ o ho
      · exact hfine₃ os hos o ho

/-! ## The whole directory -/

theorem fullPass_run (hs : s.Separate) (ht : w.tree.Sound) (hdistinct : w.tree.Distinct)
    (hroot : s.source? w.tree [] = some .directory) {report : Report}
    (hpass : execute s.fullPass w = (.ok report, w')) (hfine : ∀ o ∈ report.outcomes, Fine o) :
    Underway s w.tree w'.tree ∧ (∀ p, Listed s w.tree p → Filled s w.tree w'.tree p) ∧
      (∀ path, path ∈ report.outcomes.map (·.source) ↔
        ∃ p, path = s.sourceAt p ∧ Listed s w.tree p) ∧
      (report.outcomes.map (·.source.names)).Pairwise fun l m => ¬ m <+: l := by
  have hwatch : s.watchRoot = s.sourceAt [] := (Path.extend_nil _).symm
  rw [fullPass, hwatch] at hpass
  obtain ⟨o, w₁, hadd, hpass⟩ := execute_bind_eq_ok.mp hpass
  rw [execute_bind, Work.execute_tree] at hpass
  obtain ⟨os, w₂, hbelow, hpass⟩ := execute_bind_eq_ok.mp hpass
  obtain ⟨rfl, rfl⟩ : ⟨o :: os⟩ = report ∧ w₂ = w' := by simpa using hpass
  obtain ⟨hu₁, -, hsource, hfilled⟩ := (Underway.start ht hdistinct).addOrWarn_run hs ht hroot
    (p := []) (by simp) (.inl hroot) hadd (hfine o (by simp))
  obtain ⟨hu₂, hstays, hreports, hdone⟩ := hu₁.addBelow_run hs ht hroot (p := []) (by simp) hroot
    (.inl rfl) (fun o ho => hfine o (by simp [ho])) hbelow
  have hmem (path : Path) : path ∈ os.map (·.source) ↔
      ∃ p, path = s.sourceAt p ∧ p ≠ [] ∧ Listed s w.tree p := by
    rw [hreports.mem]
    refine exists_congr fun p => and_congr_right fun _ => and_congr_right fun _ => ?_
    refine and_iff_right_of_imp fun hl => ?_
    exact (hu₁.length_lt (hl.isSome hroot)).le
  refine ⟨hu₂, fun p hl => ?_, fun path => ?_, ?_⟩
  · by_cases hp : p = []
    · subst hp
      exact hstays _ hfilled
    · obtain ⟨o, ho, hsource⟩ := List.mem_map.mp ((hmem (s.sourceAt p)).mpr ⟨p, rfl, hp, hl⟩)
      exact hdone o ho p hsource
  · rw [List.map_cons, List.mem_cons, hmem, hsource]
    constructor
    · rintro (rfl | ⟨p, rfl, -, hl⟩)
      · exact ⟨[], rfl, .inl rfl⟩
      · exact ⟨p, rfl, hl⟩
    · rintro ⟨p, rfl, hl⟩
      by_cases hp : p = []
      · exact .inl (by rw [hp])
      · exact .inr ⟨p, rfl, hp, hl⟩
  · rw [List.map_cons, List.pairwise_cons]
    refine ⟨fun l hl hbefore => ?_, hreports.order⟩
    obtain ⟨o', ho', rfl⟩ := List.mem_map.mp hl
    obtain ⟨p, hp, hne, -⟩ := (hmem o'.source).mp (List.mem_map_of_mem ho')
    rw [hsource, hp, sourceAt_names, sourceAt_names, List.append_nil] at hbefore
    exact hne (by simpa using hbefore.eq_of_length_le (by simp))

/-- With room in the output for what is due, a full pass ends well and reports no failure
to reach a target. -/
theorem full_pass_succeeds {c : Configuration} (hwatch : c.watchDir.WellSpelled)
    (houtput : c.outputDir.WellSpelled) (hext : Descriptor.PlainSuffix c.extension)
    (ht : w.tree.Sound) (hdistinct : w.tree.Distinct) (hs : s = Syncer.of c w.tree.current)
    (hin : ¬ s.outputRoot.names <+: s.watchRoot.names)
    (hout : ¬ s.watchRoot.names <+: s.outputRoot.names)
    (hroot : s.source? w.tree [] = some .directory) (hroom : Roomy s w.tree w.tree) :
    ∃ report w', execute s.fullPass w = (.ok report, w') ∧
      ∀ o ∈ report.outcomes, o.action = .ignored → o.error = none := by
  have hseparate : s.Separate := by
    subst hs
    exact separate_of ht.current hwatch houtput hin hout
  have hext' : Descriptor.PlainSuffix s.configuration.extension := by
    subst hs
    exact hext
  have hsource : s.watchRoot = s.sourceAt [] := (Path.extend_nil _).symm
  obtain ⟨o, w₁, hadd, ⟨hu₁, hroom₁⟩, hfine⟩ := (Underway.start ht hdistinct).addOrWarn_ok
    hseparate ht hroot hext' hroom (p := []) (by simp) (.inl hroot)
  obtain ⟨os, w', hbelow, -, hfine'⟩ := hu₁.addBelow_ok hseparate ht hroot hext' hroom₁ (p := [])
    (by simp) hroot (w₁.tree.entries.length + 1)
  refine ⟨⟨o :: os⟩, w', ?_, fun o' ho' => ?_⟩
  · rw [fullPass, hsource, execute_bind_ok hadd, execute_bind, Work.execute_tree]
    simp only
    rw [execute_bind_ok hbelow, execute_pure]
  · rcases List.mem_cons.mp ho' with rfl | ho'
    · exact hfine
    · exact hfine' o' ho'

def project : Configuration where
  watchDir := .ofString "/w"
  outputDir := .ofString "/o"
  conversionDir := some (.ofString "/w")
  exclude := [".tmp"]
  context := "scene"
  sceneType := "Phaser.Scene"
  extension := ".scene"
  maxDepth := 100

/-- A script below a directory, a note, and a file that is excluded. -/
def projectWorld : World where
  tree := ⟨.ofString "/", [(["w"], .directory), (["w", "lib"], .directory),
    (["w", "lib", "hero.js"], .file (Text.encode Script.heroScript.source)),
    (["w", "note.txt"], .file [104, 105]), (["w", "old.tmp"], .file [])]⟩
  notices := []

theorem projectWorld_sound : projectWorld.tree.Sound := by
  refine sound_of_entries (by decide) fun x hx => ?_
  simp only [projectWorld, List.mem_cons, List.not_mem_nil, or_false] at hx
  rcases hx with rfl | rfl | rfl | rfl | rfl
  all_goals exact ⟨by simp, by decide, by decide⟩

theorem heroScript_gate :
    Script.heroScript.exportsClass = false ∧ Script.heroScript.sites.isEmpty = false := by
  decide +kernel

/-- The script of the example is converted with what its descriptor says. -/
theorem execute_run_hero {o : ScriptOptions} {p : Path} {w w' : World}
    {members : Except Failure (List Field)}
    (heligible : o.isEligible w.tree.current p = true)
    (hdialect : Script.Dialect.ofPath? p = some .plain) (hoptions : o.conversionOptions = .usual)
    (hmembers : execute (Transform.descriptorFields p o.extension o.maxDepth) w = (members, w')) :
    (execute (Transform.run o p Script.heroScript.source) w).1 = (do
      let members ← members
      let r ← (Script.heroScript.convert .usual members).mapError fun e => .script ⟨some p, e⟩
      return .converted r) := by
  obtain ⟨hclass, hsites⟩ := heroScript_gate
  rw [Transform.execute_run heligible hdialect Script.heroScript_read]
  simp only [hclass, hsites, hmembers, hoptions, Bool.false_eq_true, ↓reduceIte]
  cases members with
  | error f => rfl
  | ok members =>
    simp only [bind, Except.bind]
    cases Script.heroScript.convert .usual members <;> rfl

theorem heroScript_lines :
    Text.unifyLineEnds Script.heroScript.source = Script.heroScript.source := by
  decide

/-- Without a descriptor the script of the example is rewritten. -/
theorem rewrittenTo_hero {t : FileTree} {p d : Path}
    (heligible : s.configuration.scriptOptions.isEligible t.current p = true)
    (hdialect : Script.Dialect.ofPath? p = some .plain)
    (hoptions : s.configuration.scriptOptions.conversionOptions = .usual)
    (hd : Descriptor.pathOf p s.configuration.extension = .ok d) (hnone : t.isFile d = false) :
    RewrittenTo s t p (Text.encode Script.heroScript.source)
      "export function create(scene, key) { new Hero(scene); }".toList := by
  have hfields : execute (Transform.descriptorFields p s.configuration.scriptOptions.extension
      s.configuration.scriptOptions.maxDepth) ⟨t, []⟩ = (.ok [], ⟨t, []⟩) :=
    Transform.execute_descriptorFields_none hd hnone
  have hrun := execute_run_hero (w := ⟨t, []⟩) heligible hdialect hoptions hfields
  rw [← heroScript_lines] at hrun
  refine ⟨heligible, _, ⟨"export function create(scene, key) { new Hero(scene); }".toList, [], []⟩,
    _, Text.decode_encode _, Prod.ext (hrun.trans ?_) rfl, rfl⟩
  simp only [Script.heroScript_converts, bind, Except.bind, Except.mapError, pure, Except.pure]

theorem hero_rewritten : RewrittenTo (Syncer.of project projectWorld.tree.current)
    projectWorld.tree ((Syncer.of project projectWorld.tree.current).sourceAt ["lib", "hero.js"])
    (Text.encode Script.heroScript.source)
    "export function create(scene, key) { new Hero(scene); }".toList := by
  have hpath : (Syncer.of project projectWorld.tree.current).sourceAt ["lib", "hero.js"] =
      .ofString "/w/lib/hero.js" := by decide
  have hnodescriptor : projectWorld.tree.isFile (.ofString "/w/lib/hero.scene") = false := by
    rw [← Bool.not_eq_true, isFile_iff projectWorld_sound (by decide)]
    rintro ⟨b, hb⟩
    have hnone : projectWorld.tree.get? (Path.ofString "/w/lib/hero.scene").names = none := by
      decide
    cases hnone.symm.trans hb
  rw [hpath]
  exact rewrittenTo_hero (by decide) (by decide) rfl (by decide) hnodescriptor

theorem projectWorld_empty :
    OutputEmpty (Syncer.of project projectWorld.tree.current) projectWorld.tree := by
  have houtput : (Syncer.of project projectWorld.tree.current).outputRoot.names = ["o"] := by decide
  refine ⟨fun m hm => ?_, fun p hp => ?_⟩
  · rw [houtput, List.prefix_cons_iff] at hm
    rcases hm with rfl | ⟨m, rfl, hm⟩
    · exact .inr rfl
    · rw [List.prefix_nil.mp hm]
      exact .inl rfl
  · rw [output?, houtput, get?_of_ne_nil _ (by simp)]
    simp [projectWorld, List.lookup_cons]

end SceneSync.Syncer
