import Mathlib
import SceneSync.Proofs.FileTree.Change

/-!
# Names in a directory

What a listing of a directory shows, and how deep a tree can be. Where no location has
two entries a listing shows no name twice, and changes keep it so.
-/

namespace SceneSync.FileTree

variable {t : FileTree} {l : Location}

/-- The entries on the way to a location are as many as its names. -/
theorem Grounded.length_le (ht : t.Grounded) (hl : (t.get? l).isSome) : l.length ≤ t.entries.length := by
  have hnodup : ((List.range l.length).map fun i => l.take (i + 1)).Nodup := by
    refine List.Nodup.map_on (fun i hi j hj h => ?_) List.nodup_range
    have := congrArg List.length h
    simp only [List.length_take, List.mem_range] at this hi hj
    omega
  have hsub : (List.range l.length).map (fun i => l.take (i + 1)) ⊆ t.entries.map (·.1) := by
    intro m hm
    obtain ⟨i, hi, rfl⟩ := List.mem_map.mp hm
    have hne : l.take (i + 1) ≠ [] := by
      rw [← List.length_pos_iff, List.length_take]
      have := List.mem_range.mp hi
      omega
    have hthere : (t.get? (l.take (i + 1))).isSome := by
      by_cases heq : l.take (i + 1) = l
      · rwa [heq]
      · rw [ht.above hl (List.take_prefix _ _) heq]
        rfl
    rw [get?_of_ne_nil _ hne, List.lookup_isSome_iff] at hthere
    obtain ⟨x, hx, hkey⟩ := hthere
    exact List.mem_map.mpr ⟨x, hx, (beq_iff_eq.mp hkey).symm⟩
  have := (List.subperm_of_subset hnodup hsub).length_le
  simpa using this

theorem Sound.length_le (ht : t.Sound) (hl : (t.get? l).isSome) : l.length ≤ t.entries.length :=
  ht.grounded.length_le hl

/-- What can be listed is a directory. -/
theorem list_isOk (t : FileTree) (p : Path) : (t.list p).isOk = t.isDirectory p := by
  rw [Bool.eq_iff_iff, isDirectory_iff_find, find_eq_ok_iff, FileTree.list]
  cases hr : t.resolve true p with
  | error f => simp [Except.isOk, Except.toBool]
  | ok l =>
    cases hg : t.get? l with
    | none => simp [hg, Except.isOk, Except.toBool]
    | some e => cases e <;> simp [hg, Except.isOk, Except.toBool]

theorem list_eq (ht : t.Sound) {d : Path} (hd : d.Normal)
    (hdir : t.get? d.names = some .directory) : t.list d = .ok (t.namesIn d.names) := by
  rw [FileTree.list, resolve_of_leads ht true hd (ht.leads (by rw [hdir]; rfl))]
  simp [hdir]

/-- The order of names is fixed by the names. -/
theorem mergeSort_eq_of_mem {xs ys : List String} (hxs : xs.mergeSort.Nodup)
    (hys : ys.mergeSort.Nodup) (h : ∀ n, n ∈ xs.mergeSort ↔ n ∈ ys.mergeSort) :
    xs.mergeSort = ys.mergeSort := by
  have hsorted (zs : List String) : zs.mergeSort.Pairwise (fun a b => decide (a ≤ b) = true) :=
    List.pairwise_mergeSort (by simpa using fun a b c => le_trans) (by simpa using le_total) zs
  refine List.Perm.eq_of_pairwise (fun a b _ _ hab hba => ?_) (hsorted xs) (hsorted ys)
    ((List.perm_ext_iff_of_nodup hxs hys).mpr h)
  exact le_antisymm (by simpa using hab) (by simpa using hba)

/-! ## One entry for each location -/

/-- No location has two entries. -/
def Distinct (t : FileTree) : Prop := (t.entries.map (·.1)).Nodup

instance (t : FileTree) : Decidable t.Distinct := inferInstanceAs (Decidable (List.Nodup _))

theorem Distinct.put (ht : t.Distinct) (l : Location) (e : Entry) : (t.put l e).Distinct := by
  rw [Distinct] at *
  rw [FileTree.put]
  split
  · have hkeys : (t.entries.map fun x => if x.1 == l then (l, e) else x).map (·.1) =
        t.entries.map (·.1) := by
      rw [List.map_map]
      refine List.map_congr_left fun x _ => ?_
      by_cases hx : x.1 = l <;> simp [hx]
    rwa [hkeys]
  · rename_i hnone
    rw [List.map_append, List.nodup_append]
    refine ⟨ht, by simp, fun k hk k' hk' heq => hnone ?_⟩
    obtain ⟨x, hx, rfl⟩ := List.mem_map.mp hk
    obtain rfl : k' = l := by simpa using hk'
    rw [List.lookup_isSome_iff]
    exact ⟨x, hx, by simp [heq]⟩

theorem Distinct.erase (ht : t.Distinct) (l : Location) : (t.erase l).Distinct := by
  rw [Distinct] at *
  exact ht.sublist (List.filter_sublist.map _)

theorem nameIn?_eq_some {k : Location} {n : String} : nameIn? l k = some n ↔ k = l ++ [n] := by
  rcases List.eq_nil_or_concat k with rfl | ⟨m, x, rfl⟩
  · simp [nameIn?]
  · simp [nameIn?, ite_eq_iff]

theorem Distinct.namesIn_nodup (ht : t.Distinct) (l : Location) : (t.namesIn l).Nodup := by
  have hnames : t.namesIn l = (t.entries.map (·.1)).filterMap (nameIn? l) := by
    rw [namesIn, List.filterMap_map]
    rfl
  rw [hnames]
  refine List.Nodup.filterMap (fun k k' n hk hk' => ?_) ht
  rw [Option.mem_def, nameIn?_eq_some] at hk hk'
  rw [hk, hk']

theorem preserves_write (p : Path) (b : List UInt8) : Preserves Distinct (write p b) := by
  refine .bind (preserves_locate _ _) fun l => .bind .get fun t => ?_
  split
  · exact .throw _
  · exact .modify fun t ht => ht.put _ _

theorem preserves_ensureDirectory (p : Path) : Preserves Distinct (ensureDirectory p) := by
  refine .tryCatch (.bind (preserves_locate _ _) fun l => .bind .get fun t => ?_)
    fun e => .bind .get fun t => ?_
  · split
    · exact .throw _
    · exact .modify fun t ht => ht.put _ _
  · split
    · exact .throw _
    · exact .pure _

theorem preserves_ensureDirectoriesAux (anchor : Anchor) (ns : List String) :
    Preserves Distinct (ensureDirectoriesAux anchor ns) := by
  induction ns with
  | nil => exact preserves_ensureDirectory _
  | cons n ns ih =>
    refine .tryCatch (preserves_ensureDirectory _) fun e => ?_
    split
    · exact .bind (.throw _) fun _ => .bind ih fun _ => preserves_ensureDirectory _
    · exact .bind ih fun _ => preserves_ensureDirectory _

theorem preserves_ensureDirectories (p : Path) : Preserves Distinct (ensureDirectories p) :=
  preserves_ensureDirectoriesAux _ _

end SceneSync.FileTree
