import Mathlib
import SceneSync.Proofs.Synchronisation.FullPass
import SceneSync.Proofs.Synchronisation.ScriptsOf
import SceneSync.Proofs.Synchronisation.Stopping

/-!
# What a report covers

A full pass either returns a report in which everything that its walk comes by has an
outcome, or one of the few things that stop a pass has stopped it. One such thing is a
script whose descriptor cannot have a name.
-/

namespace SceneSync.Syncer

open FileTree

variable {s : Syncer} {t : FileTree} {w w' : World} {source target : Path} {p : List String}
  {follow : Bool}

/-! ## Outcomes -/

theorem gives_copy (source target : Path) (error : Option String) :
    Gives (fun o => o.source = source) (copy source target error) :=
  .bind fun _ => .bind fun _ => .pure rfl

theorem gives_addFile (source target : Path) :
    Gives (fun o => o.source = source) (s.addFile source target) := by
  refine .bind fun attempt => ?_
  split
  · exact .bind fun _ => .pure rfl
  · exact gives_copy source target none
  · exact .bind fun _ => gives_copy source target _

theorem gives_addAlone (source : Path) : Gives (fun o => o.source = source) (s.addAlone source) := by
  refine .bind fun t => ?_
  split
  · exact .pure rfl
  refine .bind fun target => ?_
  split
  · split
    · exact .pure rfl
    · exact .bind fun _ => .pure rfl
  · exact gives_addFile source target

theorem gives_add (source : Path) (follow : Bool) :
    Gives (fun o => o.source = source) (s.add source follow) := by
  refine .bind fun t => .bind_of (gives_addAlone source) fun o ho => ?_
  split
  · exact .bind fun _ => .pure ho
  · exact .pure ho

theorem gives_addOrWarn (source : Path) (follow : Bool) :
    Gives (fun o => o.source = source) (s.addOrWarn source follow) := by
  refine .tryCatch (gives_add source follow) fun f => ?_
  split
  · exact .bind fun _ => .bind fun _ => .pure rfl
  · exact .bind fun _ => .pure rfl

/-- A level that has been gone through: each of its names has an outcome. -/
theorem ofLevel_of_mapM {F : Failure → Prop} {names : List String} {os : List Outcome}
    (h : ∀ n ∈ names, Contained (GrownTo t) F (s.addOrWarn (s.sourceAt (p ++ [n])) follow))
    (hw : GrownTo t w) (hexec : execute (names.mapM fun n =>
      s.addOrWarn (s.sourceAt (p ++ [n])) follow) w = (.ok os, w')) :
    GrownTo t w' ∧ OfLevel s p names os := by
  obtain ⟨hgrown, -, hlevel⟩ := mapM_run (I := GrownTo t) (R := fun _ _ => True)
    (D := fun n (o : Outcome) (_ : World) => o.source = s.sourceAt (p ++ [n])) (by simp) (by simp)
    (by simp) (fun n hn o _ v v' hv hrun =>
      ⟨(h n hn).kept hv hrun, trivial, gives_addOrWarn _ _ v o v' hrun⟩) hw hexec
  exact ⟨hgrown, hlevel⟩

/-- The paths that a walk comes by below a directory. It goes through the directories that
are no links and not excluded, and shows what is in them, excluded directories apart; `t`
is the tree that it finds, and `t'` the one that it leaves. -/
inductive WalkedIn (s : Syncer) (t t' : FileTree) : Path → Path → Prop
  | here {d : Path} {n : String} (hn : t.Shows d n)
      (hkeep : t'.isDirectory (d.child n) = true → s.excludes (d.child n).toString = false) :
      WalkedIn s t t' d (d.child n)
  | further {d q : Path} {n : String} (hn : t.Shows d n) (hdir : t.isDirectory (d.child n) = true)
      (hlink : t.isLink (d.child n) = false) (hkeep : s.excludes (d.child n).toString = false)
      (hq : WalkedIn s t t' (d.child n) q) : WalkedIn s t t' d q

theorem WalkedIn.within {d q : Path} {t₁ t' : FileTree} (h : WalkedIn s t t' d q)
    (ht : t.Grounded) (hgrown : Within t t₁) : WalkedIn s t₁ t' d q := by
  induction h with
  | here hn hkeep => exact .here (hgrown.shows hn) hkeep
  | further hn hdir hlink hkeep _ ih =>
    exact .further (hgrown.shows hn) (hgrown.isDirectory hdir)
      (hn.isLink_within ht hgrown hdir hlink) hkeep ih

/-- Outcomes of everything that a walk comes by below a directory, whatever is added later. -/
def Covers (s : Syncer) (t : FileTree) (d : Path) (os : List Outcome) (w : World) : Prop :=
  ∀ t', Within w.tree t' → ∀ q, WalkedIn s t t' d q → q ∈ os.map (·.source)

theorem Covers.later {d : Path} {os : List Outcome} (h : Covers s t d os w)
    (hlater : Within w.tree w'.tree) : Covers s t d os w' :=
  fun t' ht' => h t' (hlater.trans ht')

/-- The outcomes of a level and those below its directories. -/
theorem covers_level {first second : List Outcome} {below : List (List Outcome)}
    (hw : Grown t w.tree) (hgrown : Grown w.tree w'.tree)
    (hfirst : OfLevel s p (s.keptNames w.tree p) first)
    (hsecond : OfLevel s p (s.otherNames w.tree p) second)
    (hbelow : List.Forall₂ (fun n os => t.Shows (s.sourceAt p) n →
      t.isDirectory (s.sourceAt (p ++ [n])) = true → t.isLink (s.sourceAt (p ++ [n])) = false →
      Covers s t (s.sourceAt (p ++ [n])) os w') (s.keptNames w.tree p) below) :
    Covers s t (s.sourceAt p) (first ++ second ++ below.flatten) w' := by
  have hchild (n : String) : (s.sourceAt p).child n = s.sourceAt (p ++ [n]) :=
    Path.extend_child _ _ _
  intro t' ht' q hq
  have hbetween : Within w.tree t' := hgrown.within.trans ht'
  simp only [List.map_append, List.mem_append, List.map_flatten]
  cases hq with
  | @here _ n hn hkeep =>
    have hn' := hw.within.shows hn
    rw [hchild] at hkeep ⊢
    cases hdir : w.tree.isDirectory (s.sourceAt (p ++ [n])) with
    | true =>
      obtain ⟨o, ho, hsource⟩ := exists_right_of_mem hfirst
        (mem_keptNames_iff.mpr ⟨hn', hdir, hkeep (hbetween.isDirectory hdir)⟩)
      exact .inl (.inl (List.mem_map.mpr ⟨o, ho, hsource⟩))
    | false =>
      obtain ⟨o, ho, hsource⟩ := exists_right_of_mem hsecond (mem_otherNames_iff.mpr ⟨hn', hdir⟩)
      exact .inl (.inr (List.mem_map.mpr ⟨o, ho, hsource⟩))
  | @further _ _ n hn hdir hlink hkeep hq =>
    rw [hchild] at hdir hlink hkeep hq
    obtain ⟨os, hos, hcovers⟩ := exists_right_of_mem hbelow (mem_keptNames_iff.mpr
      ⟨hw.within.shows hn, hw.within.isDirectory hdir, hkeep⟩)
    exact .inr (List.mem_flatten.mpr
      ⟨_, List.mem_map_of_mem hos, hcovers hn hdir hlink t' ht' q hq⟩)

/-- A depth in which everything below a directory is come by. -/
def Deep (s : Syncer) (t : FileTree) (depth : Nat) (p : List String) : Prop :=
  ∃ l, t.resolve true (s.sourceAt p) = .ok l ∧ t.get? l = some .directory ∧
    t.entries.length < depth + l.length

theorem not_deep_zero (ht : t.Grounded) : ¬ Deep s t 0 p := by
  rintro ⟨l, -, hl, hdepth⟩
  have hlength := ht.length_le (l := l) (by rw [hl]; rfl)
  omega

/-- A directory of the level lies one name deeper, unless it is a link. -/
theorem Deep.further {depth : Nat} {n : String} (h : Deep s t (depth + 1) p) (ht : t.Grounded)
    (hn : t.Shows (s.sourceAt p) n) (hdir : t.isDirectory (s.sourceAt (p ++ [n])) = true)
    (hlink : t.isLink (s.sourceAt (p ++ [n])) = false) : Deep s t depth (p ++ [n]) := by
  obtain ⟨l, hr, -, hdepth⟩ := h
  rw [sourceAt, ← Path.extend_child, ← sourceAt] at hdir hlink
  obtain ⟨hresolve, hg⟩ := hn.resolve_child ht hr hdir hlink
  refine ⟨l ++ [n], ?_, hg, by rw [List.length_append, List.length_singleton]; omega⟩
  rw [sourceAt, ← Path.extend_child]
  exact hresolve true

/-- Enough depth leaves nothing out that was there when the walk began. -/
theorem addBelow_covers (ha : s.Anchored) (ht : t.Grounded) {depth : Nat}
    (hp : ∀ n ∈ p, Path.ValidName n) (hdeep : Deep s t depth p) (hw : Grown t w.tree)
    {os : List Outcome} (hexec : execute (s.addBelow depth (s.sourceAt p)) w = (.ok os, w')) :
    Covers s t (s.sourceAt p) os w' := by
  induction depth generalizing p w w' os with
  | zero => exact absurd hdeep (not_deep_zero ht)
  | succ depth ih =>
    rw [execute_addBelow_names, addLevel] at hexec
    obtain ⟨first, w₁, hfirst, hexec⟩ := execute_bind_eq_ok.mp hexec
    obtain ⟨second, w₂, hsecond, hexec⟩ := execute_bind_eq_ok.mp hexec
    obtain ⟨below, w₃, hbelow, hexec⟩ := execute_bind_eq_ok.mp hexec
    rw [execute_pure, Prod.mk.injEq, Except.ok.injEq] at hexec
    obtain ⟨rfl, rfl⟩ := hexec
    obtain ⟨hw₁, hfirst⟩ := ofLevel_of_mapM
      (fun n hn => contained_addKept ha hw.grounded hp hn) (.refl hw.grounded) hfirst
    obtain ⟨hw₂, hsecond⟩ := ofLevel_of_mapM
      (fun n hn => contained_addOther ha hw.grounded hp hn) hw₁ hsecond
    have hdescend (n : String) (hn : n ∈ s.keptNames w.tree p) (os : List Outcome) (v v' : World)
        (hv : GrownTo w.tree v) (hrun : execute (do
          if (← Work.tree).isLink (s.sourceAt (p ++ [n])) then return []
          s.addBelow depth (s.sourceAt (p ++ [n]))) v = (.ok os, v')) :
        GrownTo w.tree v' ∧ Within v.tree v'.tree ∧ (t.Shows (s.sourceAt p) n →
          t.isDirectory (s.sourceAt (p ++ [n])) = true →
          t.isLink (s.sourceAt (p ++ [n])) = false →
          Covers s t (s.sourceAt (p ++ [n])) os v') := by
      have hvalid := valid_append hp ((mem_keptNames_iff.mp hn).1.validName hw.grounded)
      have hgrown := (contained_descend ha depth hvalid).kept (.refl hv.grounded) hrun
      refine ⟨hv.trans hgrown, hgrown.within, fun hshows hdir hlink => ?_⟩
      have hlink' : v.tree.isLink (s.sourceAt (p ++ [n])) = false := by
        rw [sourceAt, ← Path.extend_child] at hdir hlink ⊢
        exact hshows.isLink_within ht (hw.trans hv).within hdir hlink
      rw [execute_descend hlink'] at hrun
      exact ih hvalid (hdeep.further ht hshows hdir hlink) (hw.trans hv) hrun
    obtain ⟨hw₃, -, hbelow⟩ := mapM_run (R := fun v v' : World => Within v.tree v'.tree)
      (fun v => .refl v.tree) (fun _ _ _ h h' => h.trans h')
      (fun _ _ _ _ h hlater hn hdir hlink => (h hn hdir hlink).later hlater)
      (fun n hn os _ v v' => hdescend n hn os v v') hw₂ hbelow
    exact covers_level hw hw₃ hfirst hsecond hbelow

/-- The paths that the walk of a full pass comes by. -/
def Walked (s : Syncer) (t t' : FileTree) (q : Path) : Prop :=
  q = s.watchRoot ∨ WalkedIn s t t' s.watchRoot q

/-- A report leaves out nothing that the walk comes by. -/
theorem fullPass_covers (ha : s.Anchored) (ht : w.tree.Grounded) {report : Report}
    (hexec : execute s.fullPass w = (.ok report, w')) {q : Path}
    (hq : s.Walked w.tree w'.tree q) : q ∈ report.outcomes.map (·.source) := by
  obtain ⟨root, w₁, hroot, hexec⟩ := execute_bind_eq_ok.mp hexec
  have hgrown : Grown w.tree w₁.tree := by
    have hgrown := (addOrWarn_root ha ht).1
    rwa [hroot] at hgrown
  rw [execute_bind_ok (Work.execute_tree w₁)] at hexec
  obtain ⟨below, w₂, hbelow, hexec⟩ := execute_bind_eq_ok.mp hexec
  rw [execute_pure, Prod.mk.injEq, Except.ok.injEq] at hexec
  obtain ⟨rfl, rfl⟩ := hexec
  rcases hq with rfl | hq
  · simp [gives_addOrWarn _ _ w root w₁ hroot]
  · have hq' := hq.within ht hgrown.within
    have hshows : ∃ n, w₁.tree.Shows s.watchRoot n := by
      cases hq' with
      | here hn => exact ⟨_, hn⟩
      | further hn => exact ⟨_, hn⟩
    obtain ⟨n, hn⟩ := hshows
    obtain ⟨l, hr, hl, -⟩ := shows_iff.mp hn
    rw [← Path.extend_nil s.watchRoot] at hr hbelow hq'
    have hcovers := addBelow_covers (p := []) ha hgrown.grounded (by simp)
      ⟨l, hr, hl, by omega⟩ (.refl hgrown.grounded) hbelow
    exact List.mem_cons_of_mem _ (hcovers _ (.refl _) q hq')

/-- A full pass returns a report in which everything that it comes by has an outcome, unless
there is a script whose descriptor cannot have a name, or one beside a watched file that
is taken for its descriptor. -/
theorem full_pass_reports {c : Configuration} (hwatch : c.watchDir.WellSpelled)
    (houtput : c.outputDir.WellSpelled) (ht : w.tree.Grounded) :
    let s := Syncer.of c w.tree.current
    (∃ report w', execute s.fullPass w = (.ok report, w') ∧
      ∀ q, s.Walked w.tree w'.tree q → q ∈ report.outcomes.map (·.source)) ∨
    ∃ f w', execute s.fullPass w = (.error f, w') ∧ s.Stops w.tree f := by
  intro s
  have ha : s.Anchored := anchored_of ht.current hwatch houtput
  rcases hexec : execute s.fullPass w with ⟨f | report, w'⟩
  · refine .inr ⟨f, w', rfl, (fullPass_contained ha ht).2 f ?_⟩
    rw [hexec]
  · exact .inl ⟨report, w', rfl, fun q hq => fullPass_covers ha ht hexec hq⟩

/-! ## A tree with a link in it -/

/-- A script that is no text, a note, and a link that leads up again. -/
def linkedWorld : World where
  tree := ⟨.ofString "/", [(["w"], .directory), (["w", "bad.js"], .file [255]),
    (["w", "note.txt"], .file [104, 105]), (["w", "up"], .link "..")]⟩
  notices := []

theorem linkedWorld_grounded : linkedWorld.tree.Grounded := by
  refine grounded_of_entries (by decide) fun x hx => ?_
  simp only [linkedWorld, List.mem_cons, List.not_mem_nil, or_false] at hx
  rcases hx with rfl | rfl | rfl | rfl
  all_goals exact ⟨by decide, by decide⟩

theorem full_pass_reports_linked :
    linkedWorld.tree.Grounded ∧ ∃ report w',
      execute (Syncer.of project linkedWorld.tree.current).fullPass linkedWorld =
        (.ok report, w') ∧ .ofString "/w/bad.js" ∈ report.outcomes.map (·.source) := by
  have hnames : linkedWorld.tree.list (.ofString "/w") = .ok ["bad.js", "note.txt", "up"] := by
    cbv
  have hroot : linkedWorld.tree.isFile (.ofString "/w") = false := by cbv
  have hwatch : (Syncer.of project linkedWorld.tree.current).watchRoot = .ofString "/w" := by decide
  refine ⟨linkedWorld_grounded, ?_⟩
  rcases full_pass_reports (c := project) (w := linkedWorld) (Path.wellSpelled_ofString _)
    (Path.wellSpelled_ofString _) linkedWorld_grounded with
    ⟨report, w', hexec, hcovers⟩ | ⟨f, w', -, hstops⟩
  · refine ⟨report, w', hexec, hcovers _ (.inr ?_)⟩
    exact .here (d := .ofString "/w") (n := "bad.js") ⟨_, hnames, by decide⟩ fun _ => by decide
  · cases hstops with
    | extension hunusable => exact absurd (by decide) hunusable
    | script hfile =>
      rw [hwatch, hroot] at hfile
      cases hfile

/-! ## A descriptor without a name -/

/-- A script that would be converted, if its descriptor had a name. -/
theorem execute_converted?_unnamable {b : List UInt8} {cs : List Char} {d : Script.Dialect}
    {script : Script} {e : Path.NamingError}
    (heligible : s.configuration.scriptOptions.isEligible w.tree.current source = true)
    (hbytes : w.tree.read source = .ok b) (hdecode : Text.decode b = .ok cs)
    (hd : Script.Dialect.ofPath? source = some d)
    (hread : Script.read d (Text.unifyLineEnds cs) = .ok script)
    (hclass : script.exportsClass = false) (hsites : script.sites.isEmpty = false)
    (he : Descriptor.pathOf source s.configuration.extension = .error e) :
    execute (s.converted? source) w = (.error (.naming e), w) := by
  have hfields : execute (Transform.descriptorFields source s.configuration.scriptOptions.extension
      s.configuration.scriptOptions.maxDepth) w = (.error (.naming e), w) := by
    rw [Transform.descriptorFields, show s.configuration.scriptOptions.extension =
      s.configuration.extension from rfl, he]
    rfl
  have htext : execute (Work.readText source) w = (.ok (Text.unifyLineEnds cs), w) := by
    rw [Work.execute_readText, hbytes, Work.textOf, hdecode]
  have hrun := Transform.execute_run heligible hd hread
  rw [hclass, hsites, hfields] at hrun
  rw [converted?, execute_bind_ok (Work.execute_tree w)]
  simp only [heligible, Bool.not_true, Bool.false_eq_true, ↓reduceIte]
  rw [execute_bind_ok htext, execute_bind_error hrun]

/-- Such a script stops the pass. -/
theorem execute_addOrWarn_unnamable {e : Path.NamingError}
    (hfile : w.tree.isFile source = true) (hkeep : s.excludes source.toString = false)
    (htarget : s.outputPath (Path.absolute w.tree.current source) = .ok target)
    (hconverted : execute (s.converted? source) w = (.error (.naming e), w)) :
    execute (s.addOrWarn source follow) w = (.error (.naming e), w) := by
  have hadd : execute (s.add source follow) w = (.error (.naming e), w) := by
    rw [add, execute_bind_ok (Work.execute_tree w)]
    refine execute_bind_error ?_
    rw [execute_addAlone_file hfile hkeep htarget]
    exact execute_addFile_stopped target rfl hconverted
  rw [addOrWarn, execute_tryCatch_error hadd]
  rfl

def unnamable : Configuration := { project with extension := "foo" }

/-- A directory with a file for a script, and a note. -/
def twoFiles (b : List UInt8) (rest : List (Location × Entry)) : World where
  tree := ⟨.ofString "/", [(["w"], .directory), (["w", "hero.js"], .file b),
    (["w", "note.txt"], .file [104, 105])] ++ rest⟩
  notices := []

/-- The output directory is made before the script is come by. -/
theorem twoFiles_begun (b : List UInt8) :
    execute ((Syncer.of unnamable (.ofString "/")).addOrWarn (.ofString "/w") true)
        (twoFiles b []) =
      (.ok ⟨.ofString "/w", .createdDir, some (.ofString "/o"), none⟩,
        twoFiles b [(["o"], .directory)]) := by
  cbv

theorem twoFiles_names (b : List UInt8) :
    let t := (twoFiles b [(["o"], .directory)]).tree
    (Syncer.of unnamable (.ofString "/")).keptNames t [] = [] ∧
      (Syncer.of unnamable (.ofString "/")).otherNames t [] = ["hero.js", "note.txt"] ∧
      t.read (.ofString "/w/hero.js") = .ok b ∧ t.isFile (.ofString "/w/hero.js") = true := by
  refine ⟨?_, ?_, ?_, ?_⟩ <;> cbv

theorem twoFiles_shows (b : List UInt8) :
    (twoFiles b []).tree.list (.ofString "/w") = .ok ["hero.js", "note.txt"] := by
  cbv

/-- With an extension that is no suffix a script keeps the note from being reported. -/
theorem unnamable_descriptor_stops_pass :
    let s := Syncer.of unnamable (.ofString "/")
    let w := twoFiles (Text.encode Script.heroScript.source) []
    ∃ w', execute s.fullPass w = (.error (.naming (.invalidSuffix "foo")), w') ∧
      s.Walked w.tree w'.tree (.ofString "/w/note.txt") := by
  intro s w
  let w₁ := twoFiles (Text.encode Script.heroScript.source) [(["o"], .directory)]
  obtain ⟨hkept, hothers, hbytes, hfile⟩ :=
    twoFiles_names (Text.encode Script.heroScript.source)
  have hroot : s.sourceAt [] = .ofString "/w" := by decide
  have hwatch : s.watchRoot = .ofString "/w" := by decide
  have hconverted : execute (s.converted? (.ofString "/w/hero.js")) w₁ =
      (.error (.naming (.invalidSuffix "foo")), w₁) := by
    have hread := Script.heroScript_read
    rw [← heroScript_lines] at hread
    exact execute_converted?_unnamable (by decide) hbytes (Text.decode_encode _) (by decide) hread
      heroScript_gate.1 heroScript_gate.2 (by decide)
  have htarget : s.outputPath (Path.absolute w₁.tree.current (.ofString "/w/hero.js")) =
      .ok (s.targetAt ["hero.js"]) :=
    (anchored_of (c := unnamable) (by decide) (Path.wellSpelled_ofString _)
      (Path.wellSpelled_ofString _)).outputPath (p := ["hero.js"]) (by decide) _
  have hstop : execute (s.addOrWarn (s.sourceAt ["hero.js"]) false) w₁ =
      (.error (.naming (.invalidSuffix "foo")), w₁) :=
    execute_addOrWarn_unnamable hfile (by decide) htarget hconverted
  have hlevel (depth : Nat) : execute (s.addBelow (depth + 1) (.ofString "/w")) w₁ =
      (.error (.naming (.invalidSuffix "foo")), w₁) := by
    rw [← hroot, execute_addBelow_names, addLevel, hkept, hothers, List.mapM_nil, pure_bind,
      List.mapM_cons, List.nil_append]
    exact execute_bind_error (execute_bind_error hstop)
  refine ⟨w₁, ?_, .inr ?_⟩
  · rw [fullPass, hwatch, execute_bind_ok (twoFiles_begun _), execute_bind_ok (Work.execute_tree _)]
    exact execute_bind_error (hlevel _)
  · rw [hwatch]
    exact .here (d := .ofString "/w") (n := "note.txt")
      ⟨_, twoFiles_shows _, by decide⟩ fun _ => by decide

end SceneSync.Syncer
