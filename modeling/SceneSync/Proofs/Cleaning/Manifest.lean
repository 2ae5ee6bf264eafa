import Mathlib
import SceneSync.Proofs.Cleaning.Entries
import SceneSync.Proofs.FileTree.Sweep

/-!
# What a manifest takes away

The entries of a manifest are taken one after the other, each from what the earlier ones
have left. All of them together take what lies at or below a path that one of them names,
whatever their order is. The manifest goes last, by its own path: unless an entry has
taken it, or something that this path comes by.
-/

namespace SceneSync.Cleaning

open FileTree

variable {t t' : FileTree} {w : World} {directory root p : Path} {l : Location} {e : String}
  {entries : List String}

/-! ## All entries together -/

/-- What lies at or below a path that an entry names below the root. -/
def Taken (root : Path) (entries : List String) (l : Location) : Prop :=
  ∃ e ∈ entries, root.isBelow (entryPath root e) = true ∧ (entryPath root e).names <+: l

theorem taken_cons (root : Path) (e : String) (es : List String) (l : Location) :
    Taken root (e :: es) l ↔ root.isBelow (entryPath root e) = true ∧
      (entryPath root e).names <+: l ∨ Taken root es l := by
  simp [Taken]

/-- Only the set of the entries matters. -/
theorem taken_congr {entries' : List String} (h : ∀ e, e ∈ entries' ↔ e ∈ entries) (root : Path)
    (l : Location) : Taken root entries' l ↔ Taken root entries l := by
  simp only [Taken, h]

/-- What is taken lies below the root. -/
theorem Taken.below (h : Taken root entries l) : root.names <+: l ∧ l ≠ root.names := by
  obtain ⟨e, -, hbelow, hl⟩ := h
  obtain ⟨ns, hne, hpath⟩ := Path.exists_extend_of_isBelow hbelow
  rw [hpath, Path.extend_names] at hl
  refine ⟨(List.prefix_append _ _).trans hl, ?_⟩
  rintro rfl
  have := hl.length_le
  simp [hne] at this

/-- The entries sweep all of it, in whatever order they come. -/
theorem execute_cleanEntries (ht : w.tree.Sound) (hroot : root.Normal) (entries : List String) :
    ∃ c w', execute (cleanEntries false root entries) w = (.ok c, w') ∧ w'.tree.Sound ∧
      Swept (Taken root entries) w.tree w'.tree := by
  induction entries generalizing w with
  | nil => exact ⟨_, w, rfl, ht, (Swept.refl w.tree).congr fun l _ => by simp [Taken]⟩
  | cons e es ih =>
    by_cases hbelow : root.isBelow (entryPath root e) = true
    · have hne : (entryPath root e).names ≠ [] := by
        obtain ⟨ns, hns, hpath⟩ := Path.exists_extend_of_isBelow hbelow
        simp [hpath, hns]
      have hfirst := execute_removeEntry false ht (entryPath_normal hroot e)
      obtain ⟨c, w', hrest, ht', hswept⟩ :=
        ih (w := { w with tree := w.tree.erase (entryPath root e).names }) (ht.erase _)
      have hall : Swept (Taken root (e :: es)) w.tree w'.tree :=
        ((swept_erase w.tree hne).trans hswept).congr fun l _ => by simp [taken_cons, hbelow]
      let there := (w.tree.get? (entryPath root e).names).isSome
      refine ⟨⟨if there then entryPath root e :: c.removed else c.removed, c.refused⟩, w', ?_, ht',
        hall⟩
      rw [cleanEntries, if_pos hbelow, execute_bind_ok hfirst, if_neg Bool.false_ne_true,
        execute_bind_ok hrest, execute_pure]
    · obtain ⟨notice, hnotice⟩ := execute_cleanEntries_refused false hbelow es
      obtain ⟨c, w', hrest, ht', hswept⟩ :=
        ih (w := { w with notices := w.notices ++ [notice] }) ht
      have hall : Swept (Taken root (e :: es)) w.tree w'.tree :=
        hswept.congr fun l _ => by simp [taken_cons, hbelow]
      refine ⟨⟨c.removed, e :: c.refused⟩, w', ?_, ht', hall⟩
      rw [hnotice, execute_bind_ok hrest, execute_pure]

/-! ## What is named -/

theorem mem_takenInTurn (h : p ∈ takenInTurn root t entries) :
    ∃ e ∈ entries, takes root t e = true ∧ p = entryPath root e := by
  have hmem := (takenInTurn_sublist root (.refl t) entries).subset h
  obtain ⟨e, he, rfl⟩ := List.mem_map.mp hmem
  obtain ⟨he, htakes⟩ := List.mem_filter.mp he
  exact ⟨e, he, htakes, rfl⟩

/-- Nothing is named below what has been named before. -/
theorem takenInTurn_apart (root : Path) (t : FileTree) (entries : List String) :
    (takenInTurn root t entries).Pairwise fun p q => ¬ p.names <+: q.names := by
  induction entries generalizing t with
  | nil => exact .nil
  | cons e es ih =>
    rw [takenInTurn]
    split
    · rename_i hthere
      refine .cons (fun q hq => ?_) (ih _)
      obtain ⟨e', -, htakes, rfl⟩ := mem_takenInTurn hq
      exact ((takes_erase (names_ne_nil_of_takes hthere)).mp htakes).2
    · exact ih t

/-- What is taken lies at or below a path that is named. -/
theorem takenInTurn_covers (ht : t.Sound) (hl : (t.get? l).isSome) (h : Taken root entries l) :
    ∃ p ∈ takenInTurn root t entries, p.names <+: l := by
  induction entries generalizing t with
  | nil => simp [Taken] at h
  | cons e es ih =>
    rw [taken_cons] at h
    rw [takenInTurn]
    by_cases hthere : takes root t e = true
    · rw [if_pos hthere]
      by_cases hcovered : (entryPath root e).names <+: l
      · exact ⟨_, by simp, hcovered⟩
      · have hleft : ((t.erase (entryPath root e).names).get? l).isSome := by
          rw [get?_erase t (names_ne_nil_of_takes hthere), if_neg hcovered]
          exact hl
        obtain ⟨p, hp, hpl⟩ := ih (ht.erase _) hleft (h.resolve_left fun hle => hcovered hle.2)
        exact ⟨p, by simp [hp], hpl⟩
    · rw [if_neg hthere]
      refine ih ht hl (h.resolve_left fun hle => hthere ?_)
      rw [takes, hle.1, Bool.true_and]
      exact ht.isSome_of_prefix hl hle.2

/-! ## The manifest itself -/

/-- The entries take neither the manifest nor anything that its path comes by. -/
structure Spared (t : FileTree) (directory root : Path) (entries : List String) : Prop where
  way : ∀ k ∈ t.comesBy directory, ¬ Taken root entries k
  manifest : ¬ Taken root entries (root.names ++ [manifestName])

/-- A path that never leads up comes by nothing below its end. -/
theorem way_spared (ht : t.Sound) (hup : ".." ∉ directory.names) :
    ∀ k ∈ t.comesBy directory, ¬ Taken (Path.absolute t.current directory) entries k := by
  intro k hk htaken
  have hbelow := htaken.below
  exact not_mem_comesBy ht hup hbelow.1 hbelow.2 hk

/-- The manifest is taken just by an entry that names it. -/
theorem taken_manifest_iff :
    Taken root entries (root.names ++ [manifestName]) ↔
      ∃ e ∈ entries, entryPath root e = root.child manifestName := by
  constructor
  · rintro ⟨e, he, hbelow, hl⟩
    obtain ⟨ns, hne, hpath⟩ := Path.exists_extend_of_isBelow hbelow
    rw [hpath, Path.extend_names, List.prefix_append_right_inj] at hl
    rcases List.prefix_cons_iff.mp hl with rfl | ⟨rest, rfl, hrest⟩
    · exact absurd rfl hne
    · obtain rfl := List.prefix_nil.mp hrest
      exact ⟨e, he, hpath⟩
  · rintro ⟨e, he, hpath⟩
    exact ⟨e, he, by rw [hpath, Path.isBelow_child], by rw [hpath]; exact List.prefix_rfl⟩

/-- Where the manifest stands, and that its path comes by directories. -/
theorem manifest_stands (ht : t.Sound) (hfile : t.isFile (directory.child manifestName) = true) :
    let root := Path.absolute t.current directory
    (∀ k ∈ t.comesBy (directory.child manifestName), t.get? k = some .directory) ∧
      ∃ b, t.get? (root.names ++ [manifestName]) = some (.file b) := by
  obtain ⟨m, b, hwalk, hm⟩ := (isFile_iff_walk ht).mp hfile
  obtain ⟨rfl, hway⟩ := (resolve_iff_comesBy ht).mp ((resolve_ok_iff_walk ht true).mpr hwalk)
  rw [Path.absolute_child t.current directory (by decide)] at hm
  exact ⟨hway, b, hm⟩

/-- What the path of the manifest comes by is left if it is left on the way to the directory. -/
theorem spared_way_child (ht : t.Sound)
    (hway : ∀ k ∈ t.comesBy directory, ¬ Taken (Path.absolute t.current directory) entries k) :
    ∀ k ∈ t.comesBy (directory.child manifestName),
      ¬ Taken (Path.absolute t.current directory) entries k := by
  intro k hk htaken
  rw [comesBy_child ht, List.mem_append, List.mem_singleton] at hk
  rcases hk with hk | rfl
  · exact hway k hk htaken
  · exact htaken.below.2 rfl

/-- The manifest goes after the entries, unless its path leads to it no longer. -/
theorem execute_remove_manifest (ht : t.Sound) (ht' : t'.Sound)
    (hfile : t.isFile (directory.child manifestName) = true)
    (hroot : root = Path.absolute t.current directory) (hswept : Swept (Taken root entries) t t') :
    (Spared t directory root entries ∧ execute (remove (directory.child manifestName)) t' =
        (.ok (), t'.erase (root.names ++ [manifestName]))) ∨
      ¬ Spared t directory root entries ∧ execute (remove (directory.child manifestName)) t' =
        (.error ⟨.missing, directory.child manifestName⟩, t') := by
  subst hroot
  obtain ⟨hdirs, b, hm⟩ := manifest_stands ht hfile
  have hat : (Path.absolute t.current (directory.child manifestName)).names =
      (Path.absolute t.current directory).names ++ [manifestName] :=
    congrArg Path.names (Path.absolute_child t.current directory (by decide))
  by_cases hway : ∀ k ∈ t.comesBy directory, ¬ Taken (Path.absolute t.current directory) entries k
  · have hr : t'.resolve false (directory.child manifestName) =
        .ok ((Path.absolute t.current directory).names ++ [manifestName]) :=
      hswept.confined.resolve ht ht' ((resolve_iff_comesBy ht).mpr ⟨hat.symm, hdirs⟩)
        (spared_way_child ht hway)
    by_cases hmanifest : Taken (Path.absolute t.current directory) entries
        ((Path.absolute t.current directory).names ++ [manifestName])
    · refine .inr ⟨fun h => h.manifest hmanifest, ?_⟩
      exact execute_remove_none hr (hswept.gone _ hmanifest)
    · refine .inl ⟨⟨hway, hmanifest⟩, ?_⟩
      exact execute_remove_of_resolve hr ((hswept.kept _ hmanifest).trans hm) (by simp)
  · refine .inr ⟨fun h => hway h.way, execute_remove_missing (resolve_missing ht' ?_ ?_)⟩
    · intro k hk
      rw [comesBy_congr hswept.current] at hk
      rcases hswept.fewer.entries k with hnone | hsame
      · exact .inr hnone
      · exact .inl (hsame.trans (hdirs k hk))
    · simp only [not_forall, not_not] at hway
      obtain ⟨k, hk, htaken⟩ := hway
      refine ⟨k, ?_, hswept.gone k htaken⟩
      rw [comesBy_congr hswept.current, comesBy_child ht]
      exact List.mem_append_left _ hk

/-- How a run ends: the entries are taken, and then the manifest goes or cannot be found. -/
theorem removeListed_cases (hspelled : directory.WellSpelled) (ht : w.tree.Sound)
    (hfile : w.tree.isFile (directory.child manifestName) = true)
    (hread : readEntries w.tree directory = .ok entries)
    (hroot : root = Path.absolute w.tree.current directory) :
    ∃ t' ns, Swept (Taken root entries) w.tree t' ∧
      ((Spared w.tree directory root entries ∧ execute (removeListed directory false) w =
          (.ok ⟨takenInTurn root w.tree entries ++ [directory.child manifestName],
            entries.filter fun e => !root.isBelow (entryPath root e)⟩,
          ⟨t'.erase (root.names ++ [manifestName]), ns⟩)) ∨
        ¬ Spared w.tree directory root entries ∧ execute (removeListed directory false) w =
          (.error (.file ⟨.missing, directory.child manifestName⟩), ⟨t', ns⟩)) := by
  have hnormal : root.Normal := hroot ▸ Path.absolute_normal ht.current hspelled
  obtain ⟨c, w', hrun, ht', hswept⟩ := execute_cleanEntries ht hnormal entries
  have hwhole : execute (removeListed directory false) w = execute (do
      Work.change (FileTree.remove (directory.child manifestName))
      return ⟨c.removed ++ [directory.child manifestName], c.refused⟩) w' := by
    rw [execute_removeListed, if_pos hfile, execute_bind, execute_listed, hread, ← hroot]
    exact execute_bind_ok hrun
  refine ⟨w'.tree, w'.notices, hswept, ?_⟩
  rw [hwhole, ← cleanEntries_removed ht hnormal hrun, ← cleanEntries_refused hrun]
  rcases execute_remove_manifest ht ht' hfile hroot hswept with ⟨hspared, h⟩ | ⟨hspared, h⟩
  · exact .inl ⟨hspared, execute_bind_ok (Work.execute_change h)⟩
  · exact .inr ⟨hspared, execute_bind_error (Work.execute_change h)⟩

/-! ## What is left -/

/-- What a run leaves, however it ends. -/
theorem removeListed_leaves (hspelled : directory.WellSpelled) (ht : w.tree.Sound)
    (hfile : w.tree.isFile (directory.child manifestName) = true)
    (hread : readEntries w.tree directory = .ok entries)
    (hroot : root = Path.absolute w.tree.current directory) :
    let left := (execute (removeListed directory false) w).2.tree
    (∀ l, l ≠ root.names ++ [manifestName] →
      (Taken root entries l → left.get? l = none) ∧
        (¬ Taken root entries l → left.get? l = w.tree.get? l)) ∧
      (left.get? (root.names ++ [manifestName]) = none ↔
        Taken root entries (root.names ++ [manifestName]) ∨
          ∀ k ∈ w.tree.comesBy directory, ¬ Taken root entries k) := by
  intro left
  obtain ⟨-, b, hm⟩ := manifest_stands ht hfile
  rw [← hroot] at hm
  obtain ⟨t', ns, hswept, ⟨hspared, hrun⟩ | ⟨hspared, hrun⟩⟩ :=
    removeListed_cases hspelled ht hfile hread hroot
  · have hleft : left = t'.erase (root.names ++ [manifestName]) := congrArg (·.2.tree) hrun
    have hget := get?_erase t' (l := root.names ++ [manifestName]) (by simp)
    rw [hleft]
    refine ⟨fun l hl => ⟨fun htaken => ?_, fun hnot => ?_⟩, iff_of_true ?_ (.inr hspared.way)⟩
    · rw [hget, hswept.gone l htaken, ite_self]
    · rw [hget, hswept.kept l hnot, ite_eq_right_iff]
      intro hbelow
      by_contra hthere
      exact hl (ht.eq_of_file hm hbelow (Option.isSome_iff_ne_none.mpr (Ne.symm hthere)))
    · rw [hget, if_pos List.prefix_rfl]
  · have hleft : left = t' := congrArg (·.2.tree) hrun
    rw [hleft]
    refine ⟨fun l _ => ⟨hswept.gone l, hswept.kept l⟩, ?_⟩
    rw [hswept.gone_iff (by rw [hm]; rfl)]
    constructor
    · exact .inl
    · rintro (htaken | hway)
      · exact htaken
      · by_contra hnot
        exact hspared ⟨hway, hnot⟩

/-- What a manifest takes away in a tree without links: however the run ends, everything at
or below a path that an entry names below the directory, and the manifest. Nothing else
changes. The manifest is left only if an entry takes something that the path of the
directory comes by, which none does if that path never leads up, and none takes the
manifest. So the order of the entries, and how often each of them is listed, make no
difference. A run that returns has refused the other entries, in their order. -/
theorem manifest_cleanup_effect (hspelled : directory.WellSpelled) (ht : w.tree.Sound)
    (hfile : w.tree.isFile (directory.child manifestName) = true)
    (hread : readEntries w.tree directory = .ok entries) :
    let root := Path.absolute w.tree.current directory
    let manifest := root.names ++ [manifestName]
    let run := execute (removeListed directory false) w
    (∀ l, l ≠ manifest → Taken root entries l → run.2.tree.get? l = none) ∧
    (∀ l, l ≠ manifest → ¬ Taken root entries l → run.2.tree.get? l = w.tree.get? l) ∧
    (run.2.tree.get? manifest = none ↔ Taken root entries manifest ∨
      ∀ k ∈ w.tree.comesBy directory, ¬ Taken root entries k) ∧
    (".." ∉ directory.names → run.2.tree.get? manifest = none) ∧
    (∀ c, run.1 = .ok c →
      c.refused = entries.filter fun e => !root.isBelow (entryPath root e)) ∧
    (∀ v entries', v.tree.Sound → v.tree.current = w.tree.current →
      (∀ l, l ≠ manifest → v.tree.get? l = w.tree.get? l) →
      v.tree.isFile (directory.child manifestName) = true →
      readEntries v.tree directory = .ok entries' → (∀ e, e ∈ entries' ↔ e ∈ entries) →
      let run' := execute (removeListed directory false) v
      (∀ l, l ≠ manifest → run'.2.tree.get? l = run.2.tree.get? l) ∧
        (run'.2.tree.get? manifest = none ↔ run.2.tree.get? manifest = none)) := by
  intro root manifest run
  obtain ⟨helsewhere, hmanifest⟩ := removeListed_leaves hspelled ht hfile hread rfl
  refine ⟨fun l hl => (helsewhere l hl).1, fun l hl => (helsewhere l hl).2, hmanifest,
    fun hup => hmanifest.mpr (.inr (way_spared ht hup)), fun c hc => ?_, ?_⟩
  · obtain ⟨t', ns, -, ⟨-, hrun⟩ | ⟨-, hrun⟩⟩ := removeListed_cases hspelled ht hfile hread rfl
    · rw [show run = _ from hrun] at hc
      rw [← Except.ok.inj hc]
    · rw [show run = _ from hrun] at hc
      cases hc
  · intro v entries' hv hcurrent hsame hfile' hread' hentries
    have hroot : root = Path.absolute v.tree.current directory := by rw [hcurrent]
    obtain ⟨helsewhere', hmanifest'⟩ := removeListed_leaves hspelled hv hfile' hread' hroot
    simp only [taken_congr hentries, comesBy_congr hcurrent] at helsewhere' hmanifest'
    refine ⟨fun l hl => ?_, hmanifest'.trans hmanifest.symm⟩
    by_cases htaken : Taken root entries l
    · rw [(helsewhere' l hl).1 htaken, (helsewhere l hl).1 htaken]
    · rw [(helsewhere' l hl).2 htaken, (helsewhere l hl).2 htaken, hsame l hl]

/-- A build with a library and a manifest, and keys beside it. -/
def libraryWorld (manifest : String) : World where
  tree := ⟨.ofString "/", [(["b"], .directory),
    (["b", "publicroot"], .file (Text.encode manifest.toList)), (["b", "lib"], .directory),
    (["b", "lib", "a.js"], .file []), (["keys"], .file [])]⟩
  notices := []

theorem libraryWorld_sound (manifest : String) : (libraryWorld manifest).tree.Sound := by
  have hcurrent : (Path.ofString "/").Normal := by decide
  refine sound_of_entries hcurrent fun x hx => ?_
  simp only [libraryWorld, List.mem_cons, List.not_mem_nil, or_false] at hx
  rcases hx with rfl | rfl | rfl | rfl | rfl
  all_goals exact ⟨by simp, rfl, by dsimp only; decide⟩

theorem manifest_cleanup_effect_library :
    let w := libraryWorld "lib\n../keys\nlib/a.js\n"
    let v := libraryWorld "lib/a.js\nlib\nlib\n../keys\n"
    (Path.ofString "b").WellSpelled ∧ w.tree.Sound ∧
      w.tree.isFile ((Path.ofString "b").child manifestName) = true ∧
      readEntries w.tree (.ofString "b") = .ok ["lib", "../keys", "lib/a.js"] ∧
      let run := execute (removeListed (.ofString "b") false) w
      run.2.tree.get? ["b", "lib", "a.js"] = none ∧ run.2.tree.get? ["keys"] = some (.file []) ∧
        run.2.tree.get? ["b", "publicroot"] = none ∧
        ∀ l, l ≠ ["b", "publicroot"] →
          (execute (removeListed (.ofString "b") false) v).2.tree.get? l = run.2.tree.get? l := by
  intro w v
  have hspelled : (Path.ofString "b").WellSpelled := Path.wellSpelled_ofString _
  have hfile : w.tree.isFile ((Path.ofString "b").child manifestName) = true := by cbv
  have hread : readEntries w.tree (.ofString "b") = .ok ["lib", "../keys", "lib/a.js"] := by cbv
  have hfile' : v.tree.isFile ((Path.ofString "b").child manifestName) = true := by cbv
  have hread' : readEntries v.tree (.ofString "b") = .ok ["lib/a.js", "lib", "lib", "../keys"] := by
    cbv
  have hroot : Path.absolute w.tree.current (.ofString "b") = .ofString "/b" := by cbv
  have hsame (l : Location) (hl : l ≠ ["b", "publicroot"]) : v.tree.get? l = w.tree.get? l := by
    have hskip : (l == ["b", "publicroot"]) = false := by simpa using hl
    simp [v, w, libraryWorld, FileTree.get?, List.lookup_cons, hskip]
  obtain ⟨hgone, hkept, -, hmanifest, -, hother⟩ :=
    manifest_cleanup_effect hspelled (libraryWorld_sound _) hfile hread
  rw [hroot] at hgone hkept hmanifest hother
  refine ⟨hspelled, libraryWorld_sound _, hfile, hread, ?_, ?_, hmanifest (by decide),
    (hother v _ (libraryWorld_sound _) rfl hsame hfile' hread' ?_).1⟩
  · exact hgone _ (by decide) ⟨"lib", by simp, by decide, by decide⟩
  · exact hkept ["keys"] (by decide) fun htaken => absurd htaken.below.1 (by decide)
  · intro e
    simp
    tauto

/-- Where an entry takes a directory that the path of the build comes by the manifest is
left. -/
theorem swept_way_leaves_manifest : execute (removeListed (.ofString "b/sub/..") false)
      ⟨⟨.ofString "/", [(["b"], .directory), (["b", "sub"], .directory),
        (["b", "publicroot"], .file (Text.encode "sub\n".toList))]⟩, []⟩ =
    (.error (.file ⟨.missing, .ofString "b/sub/../publicroot"⟩),
      ⟨⟨.ofString "/", [(["b"], .directory),
        (["b", "publicroot"], .file (Text.encode "sub\n".toList))]⟩, []⟩) := by
  cbv

/-! ## What a run returns -/

theorem absolute_takenInTurn (hroot : root.Normal) (cwd : Path)
    (h : p ∈ takenInTurn root t entries) : Path.absolute cwd p = p := by
  obtain ⟨e, -, -, rfl⟩ := mem_takenInTurn h
  exact Path.absolute_of_normal cwd (entryPath_normal hroot e)

/-- What is returned names nothing twice, unless the manifest is taken. -/
theorem named_nodup {cwd : Path} (hroot : (Path.absolute cwd directory).Normal)
    (hnot : ¬ Taken (Path.absolute cwd directory) entries
      ((Path.absolute cwd directory).names ++ [manifestName])) :
    ((takenInTurn (Path.absolute cwd directory) t entries ++ [directory.child manifestName]).map
      (Path.absolute cwd)).Nodup := by
  have hself : (takenInTurn (Path.absolute cwd directory) t entries).map (Path.absolute cwd) =
      takenInTurn (Path.absolute cwd directory) t entries :=
    (List.map_congr_left fun p hp => absolute_takenInTurn hroot cwd hp).trans (List.map_id _)
  rw [List.map_append, hself, List.map_singleton, Path.absolute_child cwd directory (by decide)]
  refine List.Nodup.append ?_ (List.nodup_singleton _) ?_
  · refine (takenInTurn_apart _ t entries).imp fun hapart heq => hapart ?_
    rw [heq]
  · rw [List.disjoint_singleton]
    intro hmem
    obtain ⟨e, he, -, hpath⟩ := mem_takenInTurn hmem
    exact hnot (taken_manifest_iff.mpr ⟨e, he, hpath.symm⟩)

theorem spared_iff : Spared t directory root entries ↔
    (∀ e ∈ entries, entryPath root e ≠ root.child manifestName) ∧
      ∀ k ∈ t.comesBy directory, ¬ Taken root entries k := by
  have hnamed : (∀ e ∈ entries, entryPath root e ≠ root.child manifestName) ↔
      ¬ Taken root entries (root.names ++ [manifestName]) := by
    simp [taken_manifest_iff]
  rw [hnamed]
  exact ⟨fun h => ⟨h.manifest, h.way⟩, fun h => ⟨h.2, h.1⟩⟩

variable {left : FileTree}

/-- What is returned for an entry was there and has gone. -/
theorem named_gone (hspared : Spared t directory root entries)
    (hgone : ∀ l, l ≠ root.names ++ [manifestName] → Taken root entries l → left.get? l = none)
    (hp : p ∈ takenInTurn root t entries) :
    (t.get? p.names).isSome ∧ left.get? p.names = none ∧
      ∃ e ∈ entries, root.isBelow p = true ∧ p = entryPath root e := by
  obtain ⟨e, he, htakes, rfl⟩ := mem_takenInTurn hp
  rw [takes, Bool.and_eq_true] at htakes
  have htaken : Taken root entries (entryPath root e).names := ⟨e, he, htakes.1, List.prefix_rfl⟩
  have hne : (entryPath root e).names ≠ root.names ++ [manifestName] :=
    fun heq => hspared.manifest (heq ▸ htaken)
  exact ⟨htakes.2, hgone _ hne htaken, e, he, htakes.1, rfl⟩

/-- What has gone lies at or below a path that is returned. -/
theorem gone_named {cwd : Path} (ht : t.Sound) (hroot : (Path.absolute cwd directory).Normal)
    (hkept : ∀ l, l ≠ (Path.absolute cwd directory).names ++ [manifestName] →
      ¬ Taken (Path.absolute cwd directory) entries l → left.get? l = t.get? l)
    (hl : (t.get? l).isSome) (hgone : left.get? l = none) :
    ∃ p ∈ takenInTurn (Path.absolute cwd directory) t entries ++ [directory.child manifestName],
      (Path.absolute cwd p).names <+: l := by
  by_cases hl' : l = (Path.absolute cwd directory).names ++ [manifestName]
  · refine ⟨directory.child manifestName, by simp, ?_⟩
    rw [hl', Path.absolute_child cwd directory (by decide)]
    exact List.prefix_rfl
  · have htaken : Taken (Path.absolute cwd directory) entries l := by
      by_contra hnot
      rw [← hkept l hl' hnot, hgone] at hl
      cases hl
    obtain ⟨p, hp, hpl⟩ := takenInTurn_covers ht hl htaken
    refine ⟨p, List.mem_append_left _ hp, ?_⟩
    rw [absolute_takenInTurn hroot cwd hp]
    exact hpl

/-- When a run ends well, and what it returns then, in a tree without links: unless an entry
names the manifest itself, or takes something that the path of the directory comes by. It
fails in these two cases, for the manifest is not found where it should go. Otherwise the
manifest has gone, it comes last among the paths that are returned, each of these is
returned once and has gone, and everything that has gone lies at or below one of them. -/
theorem manifest_cleanup_completes (hspelled : directory.WellSpelled) (ht : w.tree.Sound)
    (hfile : w.tree.isFile (directory.child manifestName) = true)
    (hread : readEntries w.tree directory = .ok entries) :
    let root := Path.absolute w.tree.current directory
    let run := execute (removeListed directory false) w
    ((∃ c, run.1 = .ok c) ↔ (∀ e ∈ entries, entryPath root e ≠ root.child manifestName) ∧
      ∀ k ∈ w.tree.comesBy directory, ¬ Taken root entries k) ∧
    (".." ∉ directory.names → ∀ k ∈ w.tree.comesBy directory, ¬ Taken root entries k) ∧
    (∀ f, run.1 = .error f → f = .file ⟨.missing, directory.child manifestName⟩) ∧
    (∀ c, run.1 = .ok c → run.2.tree.get? (root.names ++ [manifestName]) = none ∧
      ∃ paths, c.removed = paths ++ [directory.child manifestName] ∧
        (c.removed.map (Path.absolute w.tree.current)).Nodup ∧
        (∀ p ∈ paths, (w.tree.get? p.names).isSome ∧ run.2.tree.get? p.names = none ∧
          ∃ e ∈ entries, root.isBelow p = true ∧ p = entryPath root e) ∧
        ∀ l, (w.tree.get? l).isSome → run.2.tree.get? l = none →
          ∃ p ∈ c.removed, (Path.absolute w.tree.current p).names <+: l) := by
  intro root run
  have hnormal : root.Normal := Path.absolute_normal ht.current hspelled
  obtain ⟨helsewhere, hmanifest⟩ := removeListed_leaves hspelled ht hfile hread rfl
  rw [← spared_iff]
  obtain ⟨t', ns, hswept, ⟨hspared, hrun⟩ | ⟨hspared, hrun⟩⟩ :=
    removeListed_cases hspelled ht hfile hread rfl
  · have hresult : run.1 = .ok ⟨takenInTurn root w.tree entries ++ [directory.child manifestName],
        entries.filter fun e => !root.isBelow (entryPath root e)⟩ := congrArg Prod.fst hrun
    refine ⟨iff_of_true ⟨_, hresult⟩ hspared, way_spared ht, fun f hf => ?_, fun c hc => ?_⟩
    · rw [hresult] at hf
      cases hf
    · rw [hresult] at hc
      obtain rfl := Except.ok.inj hc
      exact ⟨hmanifest.mpr (.inr hspared.way), _, rfl, named_nodup hnormal hspared.manifest,
        fun p hp => named_gone hspared (fun l hl => (helsewhere l hl).1) hp,
        fun l => gone_named ht hnormal fun k hk => (helsewhere k hk).2⟩
  · have hresult : run.1 = .error (.file ⟨.missing, directory.child manifestName⟩) :=
      congrArg Prod.fst hrun
    refine ⟨iff_of_false ?_ hspared, way_spared ht, fun f hf => ?_, fun c hc => ?_⟩
    · rintro ⟨c, hc⟩
      rw [hresult] at hc
      cases hc
    · rw [hresult] at hf
      exact (Except.error.inj hf).symm
    · rw [hresult] at hc
      cases hc

theorem manifest_cleanup_completes_library :
    let w := libraryWorld "lib/a.js\nlib\n"
    (Path.ofString "b").WellSpelled ∧ w.tree.Sound ∧
      w.tree.isFile ((Path.ofString "b").child manifestName) = true ∧
      readEntries w.tree (.ofString "b") = .ok ["lib/a.js", "lib"] ∧
      ∃ c, (execute (removeListed (.ofString "b") false) w).1 = .ok c ∧
        ∃ paths, c.removed = paths ++ [Path.ofString "b/publicroot"] ∧
          (c.removed.map (Path.absolute w.tree.current)).Nodup := by
  intro w
  have hspelled : (Path.ofString "b").WellSpelled := Path.wellSpelled_ofString _
  have hfile : w.tree.isFile ((Path.ofString "b").child manifestName) = true := by cbv
  have hread : readEntries w.tree (.ofString "b") = .ok ["lib/a.js", "lib"] := by cbv
  have hroot : Path.absolute w.tree.current (.ofString "b") = .ofString "/b" := by cbv
  obtain ⟨hends, hway, -, hreturns⟩ :=
    manifest_cleanup_completes hspelled (libraryWorld_sound _) hfile hread
  rw [hroot] at hends hway
  obtain ⟨c, hc⟩ := hends.mpr ⟨by decide, hway (by decide)⟩
  obtain ⟨-, paths, hpaths, hnodup, -⟩ := hreturns c hc
  exact ⟨hspelled, libraryWorld_sound _, hfile, hread, c, hc, paths, hpaths, hnodup⟩

/-- A manifest that lists itself is not found in the end. -/
theorem self_listed_manifest_missing : execute (removeListed (.ofString "b") false)
      ⟨⟨.ofString "/", [(["b"], .directory),
        (["b", "publicroot"], .file (Text.encode "a.txt\npublicroot\n".toList)),
        (["b", "a.txt"], .file [])]⟩, []⟩ =
    (.error (.file ⟨.missing, .ofString "b/publicroot"⟩),
      ⟨⟨.ofString "/", [(["b"], .directory)]⟩, []⟩) := by
  cbv

end SceneSync.Cleaning
