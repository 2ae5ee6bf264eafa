import Mathlib
import SceneSync.Proofs.Cleaning.Entries

/-!
# Confined cleaning

What the manifest of a directory lists is looked for at paths below the directory, and
other entries are refused. Nothing else is removed, unless a link stands on the way of
an entry: then what the entry leads to goes, wherever that is.
-/

namespace SceneSync.Cleaning

open FileTree

variable {t : FileTree} {w w' : World} {directory root : Path} {base k l : Location}
  {dryRun : Bool} {e : String} {entries : List String} {allowed : Location → Prop}

/-- A directory and where it really is: its path leads there, and so does its absolute
form, from which the entries start. -/
structure StandsAt (t : FileTree) (directory : Path) (base : Location) : Prop where
  path : t.resolve true directory = .ok base
  absolute : t.resolve true (Path.absolute t.current directory) = .ok base
  directory : t.get? base = some .directory

/-- An entry leads to a location, and its way there goes through a link. -/
def Strays (t : FileTree) (root : Path) (base : Location) (e : String) (k : Location) : Prop :=
  t.resolve false (entryPath root e) = .ok k ∧
    ∃ ns, entryPath root e = root.extend ns ∧ ¬ t.Straight base ns

/-- Without links nothing strays. -/
theorem not_strays_of_sound (ht : t.Sound) : ¬ Strays t root base e k := by
  rintro ⟨-, ns, -, hnot⟩
  exact hnot fun _ _ _ _ => ht.noLinks _ _

/-- Where something may go: below the directory, or where an entry strays to. -/
def Removable (t : FileTree) (root : Path) (base : Location) (entries : List String)
    (l : Location) : Prop :=
  (base <+: l ∧ l ≠ base) ∨
    ∃ e ∈ entries, root.isBelow (entryPath root e) = true ∧ ∃ k, Strays t root base e k ∧ k <+: l

theorem below_of_extended {ns : List String} (hne : ns ≠ []) (h : base ++ ns <+: l) :
    base <+: l ∧ l ≠ base := by
  refine ⟨(List.prefix_append base ns).trans h, ?_⟩
  rintro rfl
  have hlen := h.length_le
  rw [List.length_append] at hlen
  exact hne (List.eq_nil_of_length_eq_zero (by omega))

/-- An entry whose way is straight leads below the directory. -/
theorem accepted_leads_below (hroot : root.Normal) (hr : t.resolve true root = .ok base)
    (hbase : t.get? base = some .directory) (h : root.isBelow (entryPath root e) = true)
    (hk : t.resolve false (entryPath root e) = .ok k) :
    (base <+: k ∧ k ≠ base) ∨ Strays t root base e k := by
  obtain ⟨ns, hne, hup, hpath⟩ := exists_extend_of_accepted hroot h
  by_cases hs : t.Straight base ns
  · rw [hpath] at hk
    rw [resolve_extend_straight hr hbase hne hup hs hk]
    exact .inl (below_of_extended hne List.prefix_rfl)
  · exact .inr ⟨hk, ns, hpath, hs⟩

theorem mayGo_entry (hroot : root.Normal) (hr : t.resolve true root = .ok base)
    (hbase : t.get? base = some .directory) (he : e ∈ entries)
    (h : root.isBelow (entryPath root e) = true) :
    MayGo (Removable t root base entries) t (entryPath root e) := by
  intro k hk l hl
  rcases accepted_leads_below hroot hr hbase h hk with ⟨hbelow, hne⟩ | hstrays
  · refine .inl ⟨hbelow.trans hl, ?_⟩
    rintro rfl
    exact hne (hl.eq_of_length_le hbelow.length_le)
  · exact .inr ⟨e, he, h, k, hstrays, hl⟩

theorem mayGo_manifest (h : StandsAt t directory base) :
    MayGo (Removable t root base entries) t (directory.child manifestName) := by
  intro k hk l hl
  have hpath : directory.child manifestName = directory.extend [manifestName] := rfl
  have hstraight : t.Straight base [manifestName] := by
    intro ms hms hne target htarget
    rcases List.prefix_cons_iff.mp hms with rfl | ⟨rest, rfl, hrest⟩
    · rw [List.append_nil, h.directory] at htarget
      cases htarget
    · obtain rfl := List.prefix_nil.mp hrest
      exact hne rfl
  rw [hpath] at hk
  rw [resolve_extend_straight h.path h.directory (by simp) (by decide) hstraight hk] at hl
  exact .inl (below_of_extended (by simp) hl)

/-! ## A run -/

theorem preserves_removeEntry {p : Path} (h : MayGo allowed t p) :
    Preserves (fun w : World => Confined allowed t w.tree) (removeEntry dryRun p) := by
  rw [removeEntry]
  refine .bind (fun _ hw => hw) fun t' => ?_
  split
  · exact .pure _
  · split
    · split
      · exact .bind (Work.preserves_change (preserves_removeAll h)) fun _ => .pure _
      · exact .bind (Work.preserves_change (preserves_remove h)) fun _ => .pure _
    · exact .pure _

theorem preserves_cleanEntries
    (h : ∀ e ∈ entries, root.isBelow (entryPath root e) = true →
      MayGo allowed t (entryPath root e)) :
    Preserves (fun w : World => Confined allowed t w.tree) (cleanEntries dryRun root entries) := by
  induction entries with
  | nil => exact .pure _
  | cons e es ih =>
    have hrest := ih fun e' he' => h e' (by simp [he'])
    rw [cleanEntries]
    split
    · exact .bind (preserves_removeEntry (h e (by simp) ‹_›)) fun _ =>
        .bind hrest fun _ => .pure _
    · exact .bind (.modify fun _ hw => hw) fun _ => .bind hrest fun _ => .pure _

/-- Nothing goes but what may. -/
theorem removeListed_confined (dryRun : Bool) (h : StandsAt w.tree directory base)
    (hroot : (Path.absolute w.tree.current directory).Normal) :
    Confined (Removable w.tree (Path.absolute w.tree.current directory) base
      (entriesOf w.tree directory)) w.tree (execute (removeListed directory dryRun) w).2.tree := by
  rw [execute_removeListed]
  split
  · rw [execute_bind]
    cases hlisted : execute (listed directory) w with
    | mk r w₁ =>
      obtain rfl : w = w₁ := (Prod.mk.inj ((execute_listed directory w).symm.trans hlisted)).2
      cases r with
      | error f => exact .refl _
      | ok entries =>
        obtain rfl := (execute_listed_ok hlisted).1
        refine Preserves.bind (preserves_cleanEntries fun e he => mayGo_entry hroot h.absolute
          h.directory he) (fun c => ?_) w (.refl _)
        split
        · exact .bind (Work.preserves_change (preserves_remove (mayGo_manifest h))) fun _ => .pure _
        · exact .pure _
  · exact .refl _

theorem removeListed_refused {c : Cleaned}
    (hmanifest : w.tree.isFile (directory.child manifestName) = true)
    (h : execute (removeListed directory dryRun) w = (.ok c, w')) :
    c.refused = (entriesOf w.tree directory).filter fun e =>
      !(Path.absolute w.tree.current directory).isBelow
        (entryPath (Path.absolute w.tree.current directory) e) := by
  rw [execute_removeListed, if_pos hmanifest] at h
  obtain ⟨entries, w₁, hlisted, h⟩ := execute_bind_eq_ok.mp h
  obtain ⟨rfl, rfl⟩ := execute_listed_ok hlisted
  obtain ⟨c', w₂, hclean, h⟩ := execute_bind_eq_ok.mp h
  rw [← cleanEntries_refused hclean]
  simp only at h
  split at h
  · obtain ⟨_, w₃, -, h⟩ := execute_bind_eq_ok.mp h
    rw [execute_pure] at h
    rw [← Except.ok.inj (Prod.mk.inj h).1]
  · rw [execute_pure] at h
    rw [← Except.ok.inj (Prod.mk.inj h).1]

/-- What cleaning by the manifest of a directory does, however it ends. Only entries of
the tree go, and each of them lies below the directory or where an entry strays to. When
it ends well the entries that name nothing below the directory have been refused, and
the others lead below it or stray. So where no entry strays the directory itself is kept
and everything outside of it. -/
theorem manifest_cleanup_confined (dryRun : Bool) (hcurrent : w.tree.current.Normal)
    (hspelled : directory.WellSpelled) (h : StandsAt w.tree directory base) :
    let root := Path.absolute w.tree.current directory
    let entries := entriesOf w.tree directory
    let run := execute (removeListed directory dryRun) w
    (∀ l, run.2.tree.get? l ≠ w.tree.get? l → run.2.tree.get? l = none ∧
      ((base <+: l ∧ l ≠ base) ∨ ∃ e ∈ entries, root.isBelow (entryPath root e) = true ∧
        ∃ k, Strays w.tree root base e k ∧ k <+: l)) ∧
    ((∀ e ∈ entries, ∀ k, ¬ Strays w.tree root base e k) →
      ∀ l, ¬ (base <+: l ∧ l ≠ base) → run.2.tree.get? l = w.tree.get? l) ∧
    (∀ c, run.1 = .ok c → w.tree.isFile (directory.child manifestName) = true →
      c.refused = entries.filter fun e => !root.isBelow (entryPath root e)) ∧
    ∀ e ∈ entries, root.isBelow (entryPath root e) = true →
      ∀ k, w.tree.resolve false (entryPath root e) = .ok k →
        (base <+: k ∧ k ≠ base) ∨ Strays w.tree root base e k := by
  have hroot := Path.absolute_normal hcurrent hspelled
  have hconfined := removeListed_confined dryRun h hroot
  refine ⟨fun l hl => ⟨?_, hconfined.allowed l hl⟩, fun hno l hl => ?_, fun c hc hmanifest => ?_,
    fun e _ hbelow k hk => accepted_leads_below hroot h.absolute h.directory hbelow hk⟩
  · exact (hconfined.fewer.entries l).resolve_right hl
  · by_contra hchanged
    rcases hconfined.allowed l hchanged with hbelow | ⟨e, he, -, k, hstrays, -⟩
    · exact hl hbelow
    · exact hno e he k hstrays
  · exact removeListed_refused hmanifest (Prod.ext hc rfl)

/-- A build whose manifest lists a file outside and a directory of the build. -/
def listingWorld : World where
  tree := ⟨.ofString "/", [(["b"], .directory),
    (["b", "publicroot"], .file (Text.encode "../keys\nlib\n".toList)), (["b", "lib"], .directory),
    (["b", "lib", "a.js"], .file []), (["keys"], .file [])]⟩
  notices := []

theorem listingWorld_run : ∃ c w', execute (removeListed (.ofString "/b") false) listingWorld =
    (.ok c, w') ∧ w'.tree.get? ["b", "lib", "a.js"] = none := by
  have hmanifest : listingWorld.tree.isFile ((Path.ofString "/b").child manifestName) = true := by
    cbv
  have hlisted (n : List Notice) : execute (listed (.ofString "/b")) ⟨listingWorld.tree, n⟩ =
      (.ok ["../keys", "lib"], ⟨listingWorld.tree, n⟩) := by
    cbv
  rw [execute_removeListed, if_pos hmanifest, show listingWorld = ⟨listingWorld.tree, []⟩ from rfl,
    execute_bind_ok (hlisted []), cleanEntries, if_neg (by decide), bind_assoc, execute_bind,
    Work.execute_notify]
  simp only
  generalize Notice.log _ _ _ = notice
  refine ⟨⟨[.ofString "/b/lib", .ofString "/b/publicroot"], ["../keys"]⟩,
    ⟨⟨.ofString "/", [(["b"], .directory), (["keys"], .file [])]⟩, [notice]⟩, ?_, rfl⟩
  cbv

theorem listingWorld_sound : listingWorld.tree.Sound := by
  refine sound_of_entries (by decide) fun x hx => ?_
  simp only [listingWorld, List.mem_cons, List.not_mem_nil, or_false] at hx
  rcases hx with rfl | rfl | rfl | rfl | rfl
  all_goals exact ⟨by simp, by decide, by decide⟩

theorem listingWorld_stands : StandsAt listingWorld.tree (.ofString "/b") ["b"] := by
  have hnormal : (Path.ofString "/b").Normal := by decide
  have hr : listingWorld.tree.resolve true (.ofString "/b") = .ok ["b"] :=
    resolve_of_leads listingWorld_sound true hnormal (listingWorld_sound.leads (by decide))
  exact ⟨hr, by rwa [Path.absolute_of_normal _ hnormal], by decide⟩

theorem manifest_cleanup_confined_listing :
    StandsAt listingWorld.tree (.ofString "/b") ["b"] ∧
    ∃ c w', execute (removeListed (.ofString "/b") false) listingWorld = (.ok c, w') ∧
      c.refused = ["../keys"] ∧ w'.tree.get? ["b", "lib", "a.js"] = none ∧
      w'.tree.get? ["keys"] = some (.file []) ∧ w'.tree.get? ["b"] = some .directory := by
  obtain ⟨c, w', hrun, hgone⟩ := listingWorld_run
  obtain ⟨-, hkept, hrefused, -⟩ := manifest_cleanup_confined (w := listingWorld) false (by decide)
    (Path.wellSpelled_ofString _) listingWorld_stands
  have hentries : entriesOf listingWorld.tree (.ofString "/b") = ["../keys", "lib"] := by cbv
  rw [hrun] at hkept hrefused
  have hno : ∀ e ∈ entriesOf listingWorld.tree (.ofString "/b"), ∀ k, ¬ Strays listingWorld.tree
      (Path.absolute listingWorld.tree.current (.ofString "/b")) ["b"] e k :=
    fun _ _ _ => not_strays_of_sound listingWorld_sound
  refine ⟨listingWorld_stands, c, w', hrun, ?_, hgone, ?_, ?_⟩
  · rw [hrefused c rfl (by cbv), hentries]
    decide
  · rw [hkept hno _ (by decide)]
    rfl
  · rw [hkept hno _ (by decide)]
    rfl

/-- A build with a link to a directory outside, through which an entry of its manifest
leads. -/
def linkedWorld : World where
  tree := ⟨.ofString "/", [(["b"], .directory),
    (["b", "publicroot"], .file (Text.encode "ext/f.txt\n".toList)), (["b", "ext"], .link "../out"),
    (["out"], .directory), (["out", "f.txt"], .file [120])]⟩
  notices := []

/-- The file outside goes, although no entry is refused. -/
theorem linked_entry_leaves_directory :
    StandsAt linkedWorld.tree (.ofString "/b") ["b"] ∧
    ∃ c w', execute (removeListed (.ofString "/b") false) linkedWorld = (.ok c, w') ∧
      c.refused = [] ∧ linkedWorld.tree.get? ["out", "f.txt"] = some (.file [120]) ∧
      w'.tree.get? ["out", "f.txt"] = none := by
  refine ⟨⟨by cbv, by cbv, by decide⟩, ⟨[.ofString "/b/ext/f.txt", .ofString "/b/publicroot"], []⟩,
    ⟨⟨.ofString "/", [(["b"], .directory), (["b", "ext"], .link "../out"), (["out"], .directory)]⟩,
      []⟩, ?_, rfl, by decide, by decide⟩
  cbv

end SceneSync.Cleaning
