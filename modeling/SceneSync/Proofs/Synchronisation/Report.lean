import Mathlib
import SceneSync.Proofs.Pairing
import SceneSync.Proofs.Synchronisation.Separate

/-!
# Reports

Which paths a full pass comes by, and in what order. A directory is reported before
what is in it, and no path is reported twice.
-/

namespace SceneSync.Syncer

open FileTree

/-! ## What is listed -/

variable {s : Syncer} {t : FileTree} {p q : List String} {n : String} {depth : Nat}

/-- A path that the pass comes by: the watched directory, a directory that is not
excluded, or a file that lies in none that is. -/
def Listed (s : Syncer) (t : FileTree) (p : List String) : Prop :=
  p = [] ∨ s.source? t p = some .directory ∧ s.Keeps p ∨
    (∃ b, s.source? t p = some (.file b)) ∧ ∀ q, q <+: p → q ≠ [] → q ≠ p → s.Keeps q

theorem Keeps.listed (hs : s.Separate) (ht : t.Sound) (hkeep : s.Keeps p)
    (he : (s.source? t p).isSome) : Listed s t p := by
  obtain ⟨e, he⟩ := Option.isSome_iff_exists.mp he
  cases e with
  | directory => exact .inr (.inl ⟨he, hkeep⟩)
  | file b => exact .inr (.inr ⟨⟨b, he⟩, fun q hq _ _ => hkeep.above hs hq⟩)
  | link target => exact absurd he (ht.noLinks _ _)

/-- What stands above a path that the pass comes by is not excluded. -/
theorem Listed.above (hs : s.Separate) (h : Listed s t p) (hq : q <+: p) (hne : q ≠ [])
    (hqp : q ≠ p) : s.Keeps q := by
  rcases h with rfl | ⟨-, hkeep⟩ | ⟨-, hbetween⟩
  · exact absurd (List.prefix_nil.mp hq) hne
  · exact hkeep.above hs hq
  · exact hbetween q hq hne hqp

theorem Listed.isSome (hroot : s.source? t [] = some .directory) (h : Listed s t p) :
    (s.source? t p).isSome := by
  rcases h with rfl | ⟨hdir, -⟩ | ⟨⟨b, hb⟩, -⟩ <;> simp_all

/-! ## One level -/

/-- The names of one level: the directories that are not excluded, and what else is
there. -/
structure LevelNames (s : Syncer) (t : FileTree) (p : List String) (kept others : List String) :
    Prop where
  mem_kept : ∀ n, n ∈ kept ↔ s.source? t (p ++ [n]) = some .directory ∧ s.Keeps (p ++ [n])
  mem_others : ∀ n, n ∈ others ↔
    (s.source? t (p ++ [n])).isSome ∧ s.source? t (p ++ [n]) ≠ some .directory
  kept_nodup : kept.Nodup
  others_nodup : others.Nodup

variable {kept others : List String}

theorem LevelNames.listed_kept (h : LevelNames s t p kept others) (hn : n ∈ kept) : Listed s t (p ++ [n]) :=
  .inr (.inl ((h.mem_kept n).mp hn))

theorem LevelNames.listed_other (hs : s.Separate) (ht : t.Sound) (hopen : p = [] ∨ s.Keeps p)
    (h : LevelNames s t p kept others) (hn : n ∈ others) : Listed s t (p ++ [n]) := by
  obtain ⟨hthere, hfile⟩ := (h.mem_others n).mp hn
  obtain ⟨e, he⟩ := Option.isSome_iff_exists.mp hthere
  cases e with
  | directory => exact absurd he hfile
  | link target => exact absurd he (ht.noLinks _ _)
  | file b =>
    refine .inr (.inr ⟨⟨b, he⟩, fun q hq hne hqp => ?_⟩)
    have hqp' : q <+: p := (List.prefix_concat_iff.mp hq).resolve_left hqp
    rcases hopen with rfl | hkeep
    · exact absurd (List.prefix_nil.mp hqp') hne
    · exact hkeep.above hs hqp'

theorem LevelNames.mem_of_listed (hroot : s.source? t [] = some .directory)
    (h : LevelNames s t p kept others) (hl : Listed s t (p ++ [n])) : n ∈ kept ∨ n ∈ others := by
  by_cases hdir : s.source? t (p ++ [n]) = some .directory
  · refine .inl ((h.mem_kept n).mpr ⟨hdir, ?_⟩)
    rcases hl with hnil | ⟨-, hkeep⟩ | ⟨⟨b, hb⟩, -⟩
    · simp at hnil
    · exact hkeep
    · cases hdir.symm.trans hb
  · exact .inr ((h.mem_others n).mpr ⟨hl.isSome hroot, hdir⟩)

/-! ## The outcomes below a directory -/

/-- The outcomes of what lies below a directory, as deep as the walk goes: each path has
one, and it comes after that of what it lies in. -/
structure Reports (s : Syncer) (t : FileTree) (p : List String) (depth : Nat)
    (os : List Outcome) : Prop where
  mem : ∀ path, path ∈ os.map (·.source) ↔
    ∃ r, path = s.sourceAt (p ++ r) ∧ r ≠ [] ∧ r.length ≤ depth ∧ Listed s t (p ++ r)
  order : (os.map (·.source.names)).Pairwise fun l m => ¬ m <+: l

/-- The outcomes are those of the names of one level. -/
abbrev OfLevel (s : Syncer) (p names : List String) (os : List Outcome) : Prop :=
  List.Forall₂ (fun n o => o.source = s.sourceAt (p ++ [n])) names os

variable {names : List String} {os first second : List Outcome} {below : List (List Outcome)}
  {l : List String}

theorem Reports.names_mem (h : Reports s t (p ++ [n]) depth os) (hl : l ∈ os.map (·.source.names)) :
    ∃ r, r ≠ [] ∧ l = (s.sourceAt (p ++ n :: r)).names := by
  obtain ⟨o, ho, rfl⟩ := List.mem_map.mp hl
  obtain ⟨r, hr, hne, -⟩ := (h.mem o.source).mp (List.mem_map_of_mem ho)
  exact ⟨r, hne, by rw [hr, List.append_assoc]; rfl⟩

theorem OfLevel.names_mem (h : OfLevel s p names os) (hl : l ∈ os.map (·.source.names)) :
    ∃ n ∈ names, l = (s.sourceAt (p ++ [n])).names := by
  obtain ⟨o, ho, rfl⟩ := List.mem_map.mp hl
  obtain ⟨n, hn, hsource⟩ := exists_left_of_mem h ho
  exact ⟨n, hn, by rw [hsource]⟩

/-- One path leads through the other only under the same name. -/
theorem sourceAt_cons_below {m : String} {r r' : List String} :
    (s.sourceAt (p ++ m :: r')).names <+: (s.sourceAt (p ++ n :: r)).names ↔
      m = n ∧ r' <+: r := by
  rw [sourceAt_names, sourceAt_names, List.prefix_append_right_inj, List.prefix_append_right_inj,
    List.cons_prefix_cons]

theorem OfLevel.order (h : OfLevel s p names os) (hnames : names.Nodup) :
    (os.map (·.source.names)).Pairwise fun l m => ¬ m <+: l := by
  rw [List.pairwise_map]
  refine pairwise_of_forall₂ h hnames fun n o n' o' hn hn' hne hbefore => ?_
  rw [hn, hn', sourceAt_cons_below] at hbefore
  exact hne hbefore.1.symm

/-- Nothing that is reported on a level lies in what is reported before it, and nothing
below a directory of the level does either. -/
theorem LevelNames.order (hlevel : LevelNames s t p kept others) (hfirst : OfLevel s p kept first)
    (hsecond : OfLevel s p others second)
    (hbelow : List.Forall₂ (fun n os => Reports s t (p ++ [n]) depth os) kept below) :
    ((first ++ second ++ below.flatten).map (·.source.names)).Pairwise fun l m => ¬ m <+: l := by
  rw [List.map_append, List.map_append, List.map_flatten, List.pairwise_append,
    List.pairwise_append, List.pairwise_flatten]
  refine ⟨⟨hfirst.order hlevel.kept_nodup, hsecond.order hlevel.others_nodup, ?_⟩, ⟨?_, ?_⟩, ?_⟩
  · intro l hl l' hl' hbefore
    obtain ⟨n, hn, rfl⟩ := hfirst.names_mem hl
    obtain ⟨m, hm, rfl⟩ := hsecond.names_mem hl'
    obtain ⟨rfl, -⟩ := sourceAt_cons_below.mp hbefore
    exact ((hlevel.mem_others m).mp hm).2 ((hlevel.mem_kept m).mp hn).1
  · intro ls hls
    obtain ⟨os, hos, rfl⟩ := List.mem_map.mp hls
    obtain ⟨n, -, hreports⟩ := exists_left_of_mem hbelow hos
    exact hreports.order
  · rw [List.pairwise_map]
    refine pairwise_of_forall₂ hbelow hlevel.kept_nodup ?_
    intro n os n' os' hn hn' hne l hl l' hl' hbefore
    obtain ⟨r, -, rfl⟩ := hn.names_mem hl
    obtain ⟨r', -, rfl⟩ := hn'.names_mem hl'
    exact hne (sourceAt_cons_below.mp hbefore).1.symm
  · intro l hl l' hl' hbefore
    obtain ⟨ls, hls, hl'⟩ := List.mem_flatten.mp hl'
    obtain ⟨os, hos, rfl⟩ := List.mem_map.mp hls
    obtain ⟨m, -, hreports⟩ := exists_left_of_mem hbelow hos
    obtain ⟨r', hne, rfl⟩ := hreports.names_mem hl'
    obtain ⟨n, rfl⟩ : ∃ n, l = (s.sourceAt (p ++ [n])).names := by
      rcases List.mem_append.mp hl with hl | hl
      · obtain ⟨n, -, hn⟩ := hfirst.names_mem hl
        exact ⟨n, hn⟩
      · obtain ⟨n, -, hn⟩ := hsecond.names_mem hl
        exact ⟨n, hn⟩
    exact hne (List.prefix_nil.mp (sourceAt_cons_below.mp hbefore).2)

/-- What a level and the walks below its directories report. -/
theorem LevelNames.reports (hs : s.Separate) (ht : t.Sound) (hroot : s.source? t [] = some .directory)
    (hopen : p = [] ∨ s.Keeps p) (hlevel : LevelNames s t p kept others)
    (hfirst : OfLevel s p kept first) (hsecond : OfLevel s p others second)
    (hbelow : List.Forall₂ (fun n os => Reports s t (p ++ [n]) depth os) kept below) :
    Reports s t p (depth + 1) (first ++ second ++ below.flatten) := by
  refine ⟨fun path => ?_, hlevel.order hfirst hsecond hbelow⟩
  simp only [List.map_append, List.mem_append, List.mem_map, List.mem_flatten]
  constructor
  · rintro ((⟨o, ho, rfl⟩ | ⟨o, ho, rfl⟩) | ⟨o, ⟨os, hos, ho⟩, rfl⟩)
    · obtain ⟨n, hn, hsource⟩ := exists_left_of_mem hfirst ho
      exact ⟨[n], hsource, by simp, by simp, hlevel.listed_kept hn⟩
    · obtain ⟨n, hn, hsource⟩ := exists_left_of_mem hsecond ho
      exact ⟨[n], hsource, by simp, by simp, hlevel.listed_other hs ht hopen hn⟩
    · obtain ⟨n, hn, hreports⟩ := exists_left_of_mem hbelow hos
      obtain ⟨r, hr, -, hlen, hl⟩ := (hreports.mem o.source).mp (List.mem_map_of_mem ho)
      rw [List.append_assoc] at hr hl
      exact ⟨[n] ++ r, hr, by simp, by simpa using hlen, hl⟩
  · rintro ⟨r, rfl, hne, hlen, hl⟩
    obtain ⟨n, r, rfl⟩ := List.exists_cons_of_ne_nil hne
    by_cases hr : r = []
    · subst hr
      rcases hlevel.mem_of_listed hroot hl with hn | hn
      · obtain ⟨o, ho, hsource⟩ := exists_right_of_mem hfirst hn
        exact .inl (.inl ⟨o, ho, hsource⟩)
      · obtain ⟨o, ho, hsource⟩ := exists_right_of_mem hsecond hn
        exact .inl (.inr ⟨o, ho, hsource⟩)
    · have hprefix : p ++ [n] <+: p ++ n :: r := ⟨r, by simp⟩
      have hne' : p ++ [n] ≠ p ++ n :: r := by simp [Ne.symm hr]
      obtain ⟨e, he⟩ := Option.isSome_iff_exists.mp (hl.isSome hroot)
      have hn : n ∈ kept := (hlevel.mem_kept n).mpr
        ⟨source?_above ht he hprefix hne', hl.above hs hprefix (by simp) hne'⟩
      obtain ⟨os, hos, hreports⟩ := exists_right_of_mem hbelow hn
      have hsplit : p ++ n :: r = p ++ [n] ++ r := by simp
      obtain ⟨o, ho, hsource⟩ := List.mem_map.mp ((hreports.mem (s.sourceAt (p ++ n :: r))).mpr
        ⟨r, by rw [hsplit], hr, by simpa using hlen, hsplit ▸ hl⟩)
      exact .inr ⟨o, ⟨os, hos, ho⟩, hsource⟩

end SceneSync.Syncer
