import Mathlib
import SceneSync.Proofs.Cleaning.OtherFiles

/-!
# Dry runs

A dry run decides on the tree as it is, while a run that removes decides on what it has
left so far. The first names everything that the second does. It names the same exactly
when what it finds for the manifest is still there when the entries get their turn, and
no entry takes another one with it.
-/

namespace SceneSync.Cleaning

open FileTree

variable {t t' : FileTree} {w w' w₁ : World} {output : Path} {name : String} {c : Cleaned}
  {files : List Path}

/-! ## The copied directory -/

def copiedPath (output : Path) (name : String) : Path := output.join (Path.ofString name)

/-- The first part of a cleaning, which goes through the copied directory. -/
def cleanCopied (output : Path) (name : String) (dryRun : Bool) : Work (List Path) := do
  if (← Work.tree).isDirectory (copiedPath output name) then
    keepJson (copiedPath output name) dryRun
  else return []

theorem clean_eq (output : Path) (name : String) (dryRun : Bool) :
    clean output name dryRun = do
      let files ← cleanCopied output name dryRun
      let c ← removeListed output dryRun
      return ⟨files ++ c.removed, c.refused⟩ := by
  rw [clean, cleanCopied, bind_assoc]
  refine bind_congr fun t => ?_
  by_cases hdir : t.isDirectory (copiedPath output name) = true
  · rw [if_pos hdir]
    exact if_pos hdir
  · rw [if_neg hdir]
    exact if_neg hdir

/-- The files of other kinds that are in the copied directory. -/
def copiedFiles (t : FileTree) (output : Path) (name : String) : List Path :=
  filesBelow t (t.entries.length + 1) (copiedPath output name)

theorem execute_cleanCopied (dryRun : Bool) (w : World) :
    execute (cleanCopied output name dryRun) w =
      if w.tree.isDirectory (copiedPath output name) then
        execute (cleanBelow dryRun (w.tree.entries.length + 1) true (copiedPath output name)) w
      else (.ok [], w) := by
  rw [cleanCopied, execute_bind, Work.execute_tree]
  simp only
  split
  · rw [keepJson, execute_bind, Work.execute_tree]
  · rfl

theorem execute_cleanCopied_dry (w : World) :
    execute (cleanCopied output name true) w = (.ok (copiedFiles w.tree output name), w) := by
  rw [execute_cleanCopied]
  cases hdir : w.tree.isDirectory (copiedPath output name) with
  | true => rw [if_pos rfl, execute_cleanBelow_dry, copiedFiles]
  | false =>
    rw [if_neg (by simp), copiedFiles, filesBelow_of_not_directory hdir]

/-- The run names files that were there, all of them if its path still leads to a
directory, and it leaves a sound tree. -/
theorem cleanCopied_removed (ht : w.tree.Sound) (hd : w.tree.Distinct)
    (hexec : execute (cleanCopied output name false) w = (.ok files, w₁)) :
    Cleared w.tree w₁.tree ∧ files.Sublist (copiedFiles w.tree output name) ∧
      (w₁.tree.isDirectory (copiedPath output name) = w.tree.isDirectory (copiedPath output name) →
        files = copiedFiles w.tree output name) := by
  rw [execute_cleanCopied] at hexec
  split at hexec
  · rename_i hdir
    have hcleared := preserves_cleared w.tree (w.tree.entries.length + 1) true
      (copiedPath output name) w (.refl ht hd)
    rw [hexec] at hcleared
    obtain ⟨base, hr, hbase⟩ := find_eq_ok_iff.mp (isDirectory_iff_find.mp hdir)
    obtain ⟨hsub, heq⟩ := cleanBelow_removed ht hd hr hbase (.refl ht hd) (.refl _) hexec
    exact ⟨hcleared, hsub, fun hsame => heq hdir fun _ => hsame.trans hdir⟩
  · rename_i hdir
    rw [Prod.mk.injEq, Except.ok.injEq] at hexec
    obtain ⟨rfl, rfl⟩ := hexec
    have hnone : copiedFiles w.tree output name = [] :=
      filesBelow_of_not_directory (by simpa using hdir)
    exact ⟨.refl ht hd, List.nil_sublist _, fun _ => hnone.symm⟩

/-- A path that never leads up is not broken by the run that starts from it. -/
theorem cleanCopied_leads (ht : w.tree.Sound) (hd : w.tree.Distinct)
    (hup : ".." ∉ (copiedPath output name).names) :
    (execute (cleanCopied output name false) w).2.tree.isDirectory (copiedPath output name) =
      w.tree.isDirectory (copiedPath output name) := by
  rw [execute_cleanCopied]
  split
  · rename_i hdir
    obtain ⟨base, hr, hbase⟩ := find_eq_ok_iff.mp (isDirectory_iff_find.mp hdir)
    have hcleared := preserves_cleared w.tree (w.tree.entries.length + 1) true
      (copiedPath output name) w (.refl ht hd)
    have hconfined := preserves_cleanBelow ht hr hbase (fun l hl hne => And.intro hl hne)
      (.inl (Eq.refl true)) (w.tree.entries.length + 1) w (.refl _)
    generalize (execute _ w).2 = w' at hcleared hconfined
    have hkept (k : Location) (hk : k <+: base) : w'.tree.get? k = w.tree.get? k := by
      apply hconfined.kept
      rintro ⟨hbelow, hne⟩
      exact hne (hk.eq_of_length_le hbelow.length_le)
    have hwalk := (resolve_ok_iff_walk ht true).mp hr
    rw [hdir, isDirectory_iff_walk hcleared.sound, origin, hcleared.fewer.current]
    exact ⟨base, hwalk.of_above hup fun k hk hdirk => (hkept k hk).trans hdirk,
      (hkept base List.prefix_rfl).trans hbase⟩
  · rfl

/-! ## The manifest -/

/-- What is found for the manifest at first is still there when the entries get their
turn, and no entry takes another one with it. -/
structure Undisturbed (t t' : FileTree) (output : Path) (root : Path) : Prop where
  manifest : t'.isFile (output.child manifestName) = true
  entries : ∀ e ∈ entriesOf t output, takes root t e = true → takes root t' e = true
  apart : ((entriesOf t output).filter (takes root t)).Pairwise fun e e' =>
    ¬ (entryPath root e).names <+: (entryPath root e').names

/-- What a dry run names for the manifest, if it can be read. -/
def listedAtOnce (t : FileTree) (output root : Path) : Except Failure Cleaned :=
  if t.isFile (output.child manifestName) then
    (readEntries t output).map fun entries =>
      ⟨(entries.filter (takes root t)).map (entryPath root) ++ [output.child manifestName],
        entries.filter fun e => !root.isBelow (entryPath root e)⟩
  else .ok ⟨[], []⟩

theorem execute_removeListed_dry (ht : w.tree.Sound)
    (hroot : (Path.absolute w.tree.current output).Normal) :
    ∃ ns, execute (removeListed output true) w =
      (listedAtOnce w.tree output (Path.absolute w.tree.current output),
        { w with notices := w.notices ++ ns }) := by
  rw [execute_removeListed, listedAtOnce]
  split
  · rw [execute_bind, execute_listed]
    cases hread : readEntries w.tree output with
    | error f => exact ⟨[], by simp [Except.map]⟩
    | ok entries =>
      obtain ⟨c, ns, hremoved, hexec⟩ := execute_cleanEntries_dry ht hroot entries
      have hrefused := cleanEntries_refused (hexec w.notices)
      refine ⟨ns, ?_⟩
      simp only
      rw [execute_bind_ok (hexec w.notices)]
      simp [hremoved, hrefused, Except.map]
  · exact ⟨[], by simp⟩

/-- What a run that removes names for the manifest. -/
def listedInTurn (t : FileTree) (output root : Path) : Except Failure Cleaned :=
  if t.isFile (output.child manifestName) then
    (readEntries t output).map fun entries =>
      ⟨takenInTurn root t entries ++ [output.child manifestName],
        entries.filter fun e => !root.isBelow (entryPath root e)⟩
  else .ok ⟨[], []⟩

theorem removeListed_ok (ht : w.tree.Sound)
    (hroot : (Path.absolute w.tree.current output).Normal)
    (hexec : execute (removeListed output false) w = (.ok c, w')) :
    listedInTurn w.tree output (Path.absolute w.tree.current output) = .ok c := by
  rw [execute_removeListed] at hexec
  rw [listedInTurn]
  split at hexec
  · rename_i hfile
    rw [if_pos hfile]
    rw [execute_bind, execute_listed] at hexec
    cases hread : readEntries w.tree output with
    | error f => simp [hread] at hexec
    | ok entries =>
      simp only [hread] at hexec
      obtain ⟨c', w₁, hentries, hexec⟩ := execute_bind_eq_ok.mp hexec
      obtain ⟨_, w₂, -, hexec⟩ := execute_bind_eq_ok.mp hexec
      obtain rfl := Except.ok.inj (Prod.mk.inj hexec).1
      rw [cleanEntries_removed ht hroot hentries, cleanEntries_refused hentries]
      rfl
  · rename_i hfile
    rw [if_neg hfile]
    exact (Prod.mk.inj hexec).1

/-- The manifest of a tree with fewer entries is the same one. -/
theorem readEntries_of_fewer (h : Fewer t t')
    (hfile : t'.isFile (output.child manifestName) = true) :
    readEntries t' output = readEntries t output := by
  obtain ⟨hfile', hread⟩ := h.isFile hfile
  rw [readEntries, readEntries, if_pos hfile, if_pos hfile', hread]

variable {root : Path}

/-- What entries name in turn in a tree with fewer entries they name at once. -/
theorem listedAtOnce_of_inTurn (h : Fewer t t') (hin : listedInTurn t' output root = .ok c) :
    (∀ c', listedAtOnce t output root = .ok c' →
      c.removed.Sublist c'.removed ∧ c.refused.Sublist c'.refused) ∧
    (listedAtOnce t output root = .ok c ↔
      (t.isFile (output.child manifestName) = true → Undisturbed t t' output root)) := by
  rw [listedAtOnce]
  rw [listedInTurn] at hin
  by_cases hfile' : t'.isFile (output.child manifestName) = true
  · obtain ⟨hfile, -⟩ := h.isFile hfile'
    rw [if_pos hfile'] at hin
    rw [if_pos hfile]
    rw [readEntries_of_fewer h hfile'] at hin
    cases hread : readEntries t output with
    | error f => simp [hread, Except.map] at hin
    | ok entries =>
      rw [hread] at hin
      obtain rfl := Except.ok.inj hin
      have hentries : entriesOf t output = entries := by rw [entriesOf, hread]
      constructor
      · intro c' hc'
        obtain rfl := Except.ok.inj hc'
        exact ⟨(takenInTurn_sublist root h entries).append (.refl _), .refl _⟩
      · have hsame := takenInTurn_eq_iff root h entries
        simp only [Except.map, Except.ok.injEq, Cleaned.mk.injEq, and_true,
          List.append_cancel_right_eq]
        constructor
        · intro heq _
          obtain ⟨hall, hpairs⟩ := hsame.mp heq.symm
          exact ⟨hfile', by rwa [hentries], by rwa [hentries]⟩
        · intro h
          obtain ⟨-, hall, hpairs⟩ := h hfile
          rw [hentries] at hall hpairs
          exact (hsame.mpr ⟨hall, hpairs⟩).symm
  · rw [if_neg hfile'] at hin
    obtain rfl := Except.ok.inj hin
    refine ⟨fun c' _ => ⟨List.nil_sublist _, List.nil_sublist _⟩, ?_⟩
    by_cases hfile : t.isFile (output.child manifestName) = true
    · rw [if_pos hfile]
      constructor
      · intro heq
        cases hread : readEntries t output <;> simp [hread, Except.map] at heq
      · intro h
        exact absurd (h hfile).manifest hfile'
    · rw [if_neg hfile]
      exact ⟨fun _ hfile' => absurd hfile' hfile, fun _ => rfl⟩

/-! ## Whole runs -/

theorem execute_clean_dry (hspelled : output.WellSpelled) (name : String) (ht : w.tree.Sound) :
    ∃ ns, execute (clean output name true) w =
      ((listedAtOnce w.tree output (Path.absolute w.tree.current output)).map fun c =>
        ⟨copiedFiles w.tree output name ++ c.removed, c.refused⟩,
        { w with notices := w.notices ++ ns }) := by
  have hroot := Path.absolute_normal ht.current hspelled
  obtain ⟨ns, hlisted⟩ := execute_removeListed_dry ht hroot
  refine ⟨ns, ?_⟩
  rw [clean_eq, execute_bind_ok (execute_cleanCopied_dry w), execute_bind, hlisted]
  cases listedAtOnce w.tree output (Path.absolute w.tree.current output) <;> rfl

/-- A dry run beside the run that removes, from the same tree without links. It leaves the
tree as it is, and if it returns at all it names everything that the other one does, in the
same order. As long as the path of the copied directory still leads to it, which is so
unless the path leads up again, the dry run returns what the other one does just when
there was no manifest or nothing of what it lists was disturbed. -/
theorem dry_run_predicts (hspelled : output.WellSpelled) (ht : w.tree.Sound)
    (hd : w.tree.Distinct) (hrun : execute (clean output name false) w = (.ok c, w')) :
    let root := Path.absolute w.tree.current output
    let dry := execute (clean output name true) w
    let left := (execute (cleanCopied output name false) w).2.tree
    let copied := copiedPath output name
    dry.2.tree = w.tree ∧
    (∀ c', dry.1 = .ok c' → c.removed.Sublist c'.removed ∧ c.refused.Sublist c'.refused) ∧
    (left.isDirectory copied = w.tree.isDirectory copied →
      (dry.1 = .ok c ↔
        (w.tree.isFile (output.child manifestName) = true →
          Undisturbed w.tree left output root))) ∧
    (".." ∉ copied.names → left.isDirectory copied = w.tree.isDirectory copied) := by
  intro root dry left copied
  obtain ⟨ns, hdry⟩ := execute_clean_dry hspelled name ht
  rw [clean_eq] at hrun
  obtain ⟨files, w₁, hcopied, hrun⟩ := execute_bind_eq_ok.mp hrun
  obtain ⟨c₁, w₂, hlisted, hrun⟩ := execute_bind_eq_ok.mp hrun
  obtain rfl := Except.ok.inj (Prod.mk.inj hrun).1
  have hleft : left = w₁.tree := congrArg (fun r => r.2.tree) hcopied
  have hroot : root.Normal := Path.absolute_normal ht.current hspelled
  obtain ⟨hcleared, hsub, heq⟩ := cleanCopied_removed ht hd hcopied
  have hroot₁ : Path.absolute w₁.tree.current output = root := by
    rw [hcleared.fewer.current]
  have hin := removeListed_ok hcleared.sound (by rwa [hroot₁]) hlisted
  rw [hroot₁] at hin
  obtain ⟨hsublists, hiff⟩ := listedAtOnce_of_inTurn hcleared.fewer hin
  refine ⟨?_, fun c' hc' => ?_, fun hsame => ?_, cleanCopied_leads ht hd⟩
  · rw [show dry = _ from hdry]
  · rw [show dry = _ from hdry, show Path.absolute w.tree.current output = root from rfl] at hc'
    cases hlist : listedAtOnce w.tree output root with
    | error f => simp [hlist, Except.map] at hc'
    | ok c₂ =>
      rw [hlist] at hc'
      obtain rfl := Except.ok.inj hc'
      obtain ⟨hremoved, hrefused⟩ := hsublists c₂ hlist
      exact ⟨hsub.append hremoved, hrefused⟩
  · rw [hleft] at hsame ⊢
    rw [show dry = _ from hdry, show Path.absolute w.tree.current output = root from rfl, ← hiff,
      ← heq hsame]
    cases listedAtOnce w.tree output root with
    | error f => simp [Except.map]
    | ok c₂ =>
      obtain ⟨removed₁, refused₁⟩ := c₁
      obtain ⟨removed₂, refused₂⟩ := c₂
      simp [Except.map]

/-- A build with a script and a pack in the copied directory, and a page in its manifest. -/
def pageWorld : World where
  tree := ⟨.ofString "/", [(["b"], .directory),
    (["b", "publicroot"], .file (Text.encode "debug.html\n".toList)),
    (["b", "debug.html"], .file []), (["b", "editor"], .directory),
    (["b", "editor", "a.js"], .file []), (["b", "editor", "pack.json"], .file [])]⟩
  notices := []

theorem pageWorld_sound : pageWorld.tree.Sound := by
  refine sound_of_entries (by decide) fun x hx => ?_
  simp only [pageWorld, List.mem_cons, List.not_mem_nil, or_false] at hx
  rcases hx with rfl | rfl | rfl | rfl | rfl | rfl
  all_goals exact ⟨by simp, by decide, by decide⟩

def pageCleaned : Cleaned :=
  ⟨[.ofString "/b/editor/a.js", .ofString "/b/debug.html", .ofString "/b/publicroot"], []⟩

theorem pageWorld_run : ∃ w', execute (clean (.ofString "/b") "editor" false) pageWorld =
    (.ok pageCleaned, w') := by
  refine ⟨⟨⟨.ofString "/", [(["b"], .directory), (["b", "editor"], .directory),
    (["b", "editor", "pack.json"], .file [])]⟩, []⟩, ?_⟩
  cbv

theorem dry_run_predicts_page : pageWorld.tree.Sound ∧ pageWorld.tree.Distinct ∧
    (∃ w', execute (clean (.ofString "/b") "editor" false) pageWorld = (.ok pageCleaned, w')) ∧
    ∃ w', execute (clean (.ofString "/b") "editor" true) pageWorld = (.ok pageCleaned, w') ∧
      w'.tree = pageWorld.tree := by
  obtain ⟨w', hrun⟩ := pageWorld_run
  have hdistinct : pageWorld.tree.Distinct := by decide
  obtain ⟨htree, -, hiff, hleads⟩ := dry_run_predicts (Path.wellSpelled_ofString "/b")
    pageWorld_sound hdistinct hrun
  have hundisturbed : Undisturbed pageWorld.tree
      (execute (cleanCopied (.ofString "/b") "editor" false) pageWorld).2.tree (.ofString "/b")
      (Path.absolute pageWorld.tree.current (.ofString "/b")) := by
    have hentries : entriesOf pageWorld.tree (.ofString "/b") = ["debug.html"] := by cbv
    refine ⟨by cbv, ?_, ?_⟩
    · intro e he _
      rw [hentries, List.mem_singleton] at he
      rw [he]
      cbv
    · rw [hentries]
      exact (List.pairwise_singleton _ _).sublist List.filter_sublist
  refine ⟨pageWorld_sound, hdistinct, ⟨w', hrun⟩, _, Prod.ext ?_ rfl, htree⟩
  exact (hiff (hleads (by decide))).mpr fun _ => hundisturbed

/-- A build whose manifest lists a file twice. -/
def twiceWorld : World where
  tree := ⟨.ofString "/", [(["b"], .directory),
    (["b", "publicroot"], .file (Text.encode "a.txt\na.txt\n".toList)),
    (["b", "a.txt"], .file [120])]⟩
  notices := []

/-- The dry run names the file twice, and the run that removes it once. -/
theorem repeated_entry_predicted_twice :
    (∃ w', execute (clean (.ofString "/b") "editor" false) twiceWorld =
      (.ok ⟨[.ofString "/b/a.txt", .ofString "/b/publicroot"], []⟩, w')) ∧
    ∃ w', execute (clean (.ofString "/b") "editor" true) twiceWorld =
      (.ok ⟨[.ofString "/b/a.txt", .ofString "/b/a.txt", .ofString "/b/publicroot"], []⟩, w') := by
  refine ⟨⟨⟨⟨.ofString "/", [(["b"], .directory)]⟩, []⟩, ?_⟩, ⟨twiceWorld, ?_⟩⟩
  · cbv
  · cbv

end SceneSync.Cleaning
