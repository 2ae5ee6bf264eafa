import Mathlib
import SceneSync.FileTree.Change
import SceneSync.Proofs.Path

/-!
# Sound file trees

A tree without links in which every entry stands in a directory, under names that
files can have. A normal path is resolved there to its own names, or not at all.
-/

namespace SceneSync.FileTree

variable {t : FileTree} {l m : Location} {e : Entry}

/-! ## Entries after a change -/

@[simp] theorem get?_root (t : FileTree) : t.get? [] = some .directory := rfl

theorem get?_of_ne_nil (t : FileTree) (h : l ≠ []) : t.get? l = t.entries.lookup l := by
  simp [get?, h]

theorem lookup_map_replace (xs : List (Location × Entry)) (l m : Location) (e : Entry) :
    (xs.map fun x => if x.1 == l then (l, e) else x).lookup m =
      if m = l ∧ (xs.lookup l).isSome then some e else xs.lookup m := by
  induction xs with
  | nil => simp
  | cons x xs ih =>
    obtain ⟨k, f⟩ := x
    have hskip {j : Location} (h : j ≠ k) (v : Entry) (ys : List (Location × Entry)) :
        ((k, v) :: ys).lookup j = ys.lookup j := by
      simp [List.lookup_cons, beq_eq_false_iff_ne.mpr h]
    rw [List.map_cons]
    by_cases hk : k = l
    · subst hk
      rw [if_pos (by simp)]
      by_cases hm : m = k
      · subst hm
        simp
      · rw [hskip hm, hskip hm, ih]
        simp [hm]
    · rw [if_neg (by simpa using hk)]
      by_cases hm : m = k
      · subst hm
        simp [hk]
      · rw [hskip hm, hskip hm, hskip (Ne.symm hk), ih]

theorem get?_put (t : FileTree) (hl : l ≠ []) (e : Entry) (m : Location) :
    (t.put l e).get? m = if m = l then some e else t.get? m := by
  by_cases hm : m = []
  · subst hm
    simp [Ne.symm hl]
  · rw [get?_of_ne_nil _ hm, get?_of_ne_nil _ hm, put]
    split
    · rename_i h
      simp only [lookup_map_replace, h, and_true]
    · rename_i h
      have hnone : t.entries.lookup l = none := Option.not_isSome_iff_eq_none.mp h
      rw [List.lookup_append]
      by_cases hml : m = l
      · subst hml
        simp [hnone]
      · simp [List.lookup_cons, beq_eq_false_iff_ne.mpr hml, hml]

theorem lookup_filter (xs : List (Location × Entry)) (q : Location → Bool) (m : Location) :
    (xs.filter fun x => q x.1).lookup m = if q m then xs.lookup m else none := by
  induction xs with
  | nil => simp
  | cons x xs ih =>
    obtain ⟨k, f⟩ := x
    by_cases hm : m = k
    · subst hm
      cases hq : q m <;> simp [hq, ih]
    · have hmk : (m == k) = false := by simp [hm]
      cases hk : q k <;> simp [List.lookup_cons, hk, hmk, ih]

theorem get?_erase_any (t : FileTree) (l m : Location) :
    (t.erase l).get? m = if l <+: m ∧ m ≠ [] then none else t.get? m := by
  by_cases hm : m = []
  · subst hm
    simp
  · rw [get?_of_ne_nil _ hm, get?_of_ne_nil _ hm, erase,
      lookup_filter t.entries (fun k => !l.isPrefixOf k) m]
    by_cases hp : l <+: m <;> simp [List.isPrefixOf_iff_prefix, hp, hm]

theorem get?_erase (t : FileTree) (hl : l ≠ []) (m : Location) :
    (t.erase l).get? m = if l <+: m then none else t.get? m := by
  have hne : l <+: m → m ≠ [] := by
    rintro hp rfl
    exact hl (List.prefix_nil.mp hp)
  simp only [get?_erase_any, and_iff_left_of_imp hne]

theorem get?_clear (t : FileTree) (l m : Location) :
    (t.clear l).get? m = if l <+: m ∧ m ≠ l then none else t.get? m := by
  by_cases hm : m = []
  · subst hm
    rw [if_neg fun h => h.2 (List.prefix_nil.mp h.1).symm]
    rfl
  · rw [get?_of_ne_nil _ hm, get?_of_ne_nil _ hm, clear,
      lookup_filter t.entries (fun k => k == l || !l.isPrefixOf k) m]
    by_cases hp : l <+: m <;> by_cases hml : m = l <;>
      simp [List.isPrefixOf_iff_prefix, hp, hml]

/-- To empty a location first makes no difference when it is removed. -/
theorem erase_clear (t : FileTree) (l : Location) : (t.clear l).erase l = t.erase l := by
  have hboth (x : Location × Entry) :
      ((!l.isPrefixOf x.1) && (x.1 == l || !l.isPrefixOf x.1)) = !l.isPrefixOf x.1 := by
    cases l.isPrefixOf x.1 <;> simp
  simp only [erase, clear, List.filter_filter, hboth]

theorem mem_namesIn {n : String} : n ∈ t.namesIn l ↔ (t.get? (l ++ [n])).isSome := by
  rw [get?_of_ne_nil _ (by simp), List.lookup_isSome_iff, namesIn, List.mem_filterMap]
  constructor
  · rintro ⟨⟨k, e⟩, hmem, hk⟩
    refine ⟨(k, e), hmem, ?_⟩
    rcases List.eq_nil_or_concat k with rfl | ⟨m, x, rfl⟩
    · simp [nameIn?] at hk
    · simp only [nameIn?, List.concat_eq_append, List.getLast?_append, List.getLast?_singleton,
        List.dropLast_concat] at hk
      simp_all
  · rintro ⟨⟨k, e⟩, hmem, hk⟩
    obtain rfl : l ++ [n] = k := by simpa using hk
    exact ⟨_, hmem, by simp [nameIn?]⟩

@[simp] theorem put_current (t : FileTree) (l : Location) (e : Entry) :
    (t.put l e).current = t.current := by
  rw [put]
  split <;> rfl

@[simp] theorem erase_current (t : FileTree) (l : Location) : (t.erase l).current = t.current :=
  rfl

@[simp] theorem clear_current (t : FileTree) (l : Location) : (t.clear l).current = t.current :=
  rfl

/-! ## Soundness -/

/-- A tree in which every entry stands in a directory, under names that files can have. -/
structure Grounded (t : FileTree) : Prop where
  parents : ∀ l n, (t.get? (l ++ [n])).isSome → t.get? l = some .directory
  names : ∀ l, (t.get? l).isSome → ∀ n ∈ l, Path.ValidName n
  current : t.current.Normal

structure Sound (t : FileTree) : Prop where
  noLinks : ∀ l target, t.get? l ≠ some (.link target)
  parents : ∀ l n, (t.get? (l ++ [n])).isSome → t.get? l = some .directory
  names : ∀ l, (t.get? l).isSome → ∀ n ∈ l, Path.ValidName n
  current : t.current.Normal

theorem Sound.grounded (ht : t.Sound) : t.Grounded := ⟨ht.parents, ht.names, ht.current⟩

/-- Everything above an entry is a directory. -/
theorem Grounded.above (ht : t.Grounded) (hl : (t.get? l).isSome) (hm : m <+: l) (hne : m ≠ l) :
    t.get? m = some .directory := by
  obtain ⟨ns, rfl⟩ := hm
  induction ns using List.reverseRecOn with
  | nil => simp at hne
  | append_singleton ns n ih =>
    rw [← List.append_assoc] at hl
    have hparent := ht.parents _ _ hl
    by_cases hns : ns = []
    · subst hns
      simpa using hparent
    · exact ih (by rw [hparent]; rfl) (by simpa using hns)

theorem Sound.above (ht : t.Sound) (hl : (t.get? l).isSome) (hm : m <+: l) (hne : m ≠ l) :
    t.get? m = some .directory := ht.grounded.above hl hm hne

theorem Sound.isSome_of_prefix (ht : t.Sound) (hl : (t.get? l).isSome) (hm : m <+: l) :
    (t.get? m).isSome := by
  by_cases hne : m = l
  · rwa [hne]
  · rw [ht.above hl hm hne]
    rfl

/-- Below a file there is nothing. -/
theorem Sound.eq_of_file (ht : t.Sound) {b : List UInt8} (hl : t.get? l = some (.file b))
    (hm : l <+: m) (hthere : (t.get? m).isSome) : m = l := by
  by_contra hne
  rw [ht.above hthere hm (Ne.symm hne)] at hl
  cases hl

/-- An entry can be put in a directory, except in the place of one. -/
theorem Grounded.put (ht : t.Grounded) {n : String} (hl : t.get? l = some .directory)
    (hn : Path.ValidName n) (hold : t.get? (l ++ [n]) ≠ some .directory ∨ e = .directory) :
    (t.put (l ++ [n]) e).Grounded := by
  have hget := get?_put t (l := l ++ [n]) (by simp) e
  refine ⟨fun m k hm => ?_, fun m hm => ?_, by simpa using ht.current⟩
  · rw [hget] at hm ⊢
    split at hm
    · rename_i hmk
      obtain ⟨rfl, -⟩ := List.append_inj' hmk rfl
      rw [if_neg (by simp), hl]
    · have hparent := ht.parents m k hm
      split
      · rename_i hml
        subst hml
        rcases hold with hold | rfl
        · exact absurd hparent hold
        · rfl
      · exact hparent
  · rw [hget] at hm
    split at hm
    · rename_i hml
      subst hml
      intro k hk
      rcases List.mem_append.mp hk with hk | hk
      · exact ht.names l (by rw [hl]; rfl) k hk
      · rwa [List.mem_singleton.mp hk]
    · exact ht.names m hm

theorem Sound.put (ht : t.Sound) {n : String} (hl : t.get? l = some .directory)
    (hn : Path.ValidName n) (he : ∀ target, e ≠ .link target)
    (hold : t.get? (l ++ [n]) ≠ some .directory ∨ e = .directory) :
    (t.put (l ++ [n]) e).Sound := by
  have hg := ht.grounded.put hl hn hold
  refine ⟨fun m target => ?_, hg.parents, hg.names, hg.current⟩
  rw [get?_put t (by simp)]
  split
  · simpa using he target
  · exact ht.noLinks m target

theorem Sound.erase (ht : t.Sound) (l : Location) : (t.erase l).Sound := by
  have hget := get?_erase_any t l
  refine ⟨fun m target => ?_, fun m k hm => ?_, fun m hm => ?_, ht.current⟩
  · rw [hget]
    split
    · simp
    · exact ht.noLinks m target
  · rw [hget] at hm ⊢
    split at hm
    · simp at hm
    · rename_i hnot
      rw [if_neg fun hp => hnot ⟨hp.1.trans (List.prefix_append m [k]), by simp⟩]
      exact ht.parents m k hm
  · rw [hget] at hm
    split at hm
    · simp at hm
    · exact ht.names m hm

/-- Where nothing stands there is nothing to be erased. -/
theorem Sound.erase_of_none (ht : t.Sound) (hnone : t.get? l = none) : t.erase l = t := by
  have hkeeps : ∀ x ∈ t.entries, (!l.isPrefixOf x.1) = true := by
    intro x hx
    rw [Bool.not_eq_true', ← Bool.not_eq_true, List.isPrefixOf_iff_prefix]
    intro hp
    have hthere : (t.get? x.1).isSome := by
      by_cases hnil : x.1 = []
      · rw [hnil]
        rfl
      · rw [get?_of_ne_nil _ hnil, List.lookup_isSome_iff]
        exact ⟨x, hx, by simp⟩
    by_cases hl : l = x.1
    · rw [← hl, hnone] at hthere
      cases hthere
    · rw [ht.above hthere hp hl] at hnone
      cases hnone
  rw [FileTree.erase, List.filter_eq_self.mpr hkeeps]

theorem Sound.clear (ht : t.Sound) (l : Location) : (t.clear l).Sound := by
  have hget := get?_clear t l
  refine ⟨fun m target => ?_, fun m k hm => ?_, fun m hm => ?_, ht.current⟩
  · rw [hget]
    split
    · simp
    · exact ht.noLinks m target
  · rw [hget] at hm ⊢
    split at hm
    · simp at hm
    · rename_i hnot
      rw [if_neg]
      · exact ht.parents m k hm
      · rintro ⟨hp, hne⟩
        refine hnot ⟨hp.trans (List.prefix_append m [k]), ?_⟩
        rintro rfl
        exact hne (hp.eq_of_length_le (by simp)).symm
  · rw [hget] at hm
    split at hm
    · simp at hm
    · exact ht.names m hm

theorem mem_entries_of_get? (hl : l ≠ []) (he : t.get? l = some e) : (l, e) ∈ t.entries := by
  rw [get?_of_ne_nil _ hl, List.lookup_eq_some_iff] at he
  obtain ⟨before, after, heq, -⟩ := he
  simp [heq]

/-- It is enough to look at the entries. -/
theorem grounded_of_entries (hcurrent : t.current.Normal)
    (h : ∀ x ∈ t.entries, t.get? x.1.dropLast = some .directory ∧ ∀ n ∈ x.1, Path.ValidName n) :
    t.Grounded := by
  refine ⟨fun l n hl => ?_, fun l hl => ?_, hcurrent⟩
  · obtain ⟨e, he⟩ := Option.isSome_iff_exists.mp hl
    have hparent := (h _ (mem_entries_of_get? (by simp) he)).1
    simpa using hparent
  · by_cases hnil : l = []
    · simp [hnil]
    · obtain ⟨e, he⟩ := Option.isSome_iff_exists.mp hl
      exact (h _ (mem_entries_of_get? hnil he)).2

theorem sound_of_entries (hcurrent : t.current.Normal)
    (h : ∀ x ∈ t.entries, (∀ target, x.2 ≠ .link target) ∧
      t.get? x.1.dropLast = some .directory ∧ ∀ n ∈ x.1, Path.ValidName n) : t.Sound := by
  have hgrounded := grounded_of_entries hcurrent fun x hx => (h x hx).2
  refine ⟨fun l target hl => ?_, hgrounded.parents, hgrounded.names, hcurrent⟩
  by_cases hnil : l = []
  · subst hnil
    cases hl
  · exact (h _ (mem_entries_of_get? hnil hl)).1 target rfl

/-! ## Resolution -/

/-- The names before the last lead through directories. -/
def Leads (t : FileTree) (l : Location) : Prop :=
  ∀ m, m <+: l → m ≠ l → t.get? m = some .directory

theorem Sound.leads (ht : t.Sound) (hl : (t.get? l).isSome) : t.Leads l :=
  fun _ hm hne => ht.above hl hm hne

theorem leads_append {n : String} : t.Leads (l ++ [n]) ↔ t.Leads l ∧ t.get? l = some .directory := by
  constructor
  · intro h
    refine ⟨fun m hm hne => ?_, h l (List.prefix_append l [n]) (by simp)⟩
    refine h m (hm.trans (List.prefix_append l [n])) ?_
    rintro rfl
    have := hm.length_le
    simp at this
  · rintro ⟨h, hl⟩ m hm hne
    rcases List.prefix_concat_iff.mp hm with rfl | hm
    · exact absurd rfl hne
    · by_cases hml : m = l
      · rwa [hml]
      · exact h m hm hml

/-- One name further, in a tree without links. -/
theorem resolveFrom_cons (ht : t.Sound) (follow : Bool) (links : Nat) (l : Location) {n : String}
    (hn : n ≠ "..") (ns : List String) : t.resolveFrom follow links l (n :: ns) =
      match t.get? l with
      | none => .error .missing
      | some .directory =>
        if (t.get? (l ++ [n])).isSome || ns.isEmpty then t.resolveFrom follow links (l ++ [n]) ns
        else .error .missing
      | some _ => .error .notDirectory := by
  have hup : (n == "..") = false := by simp [hn]
  rw [resolveFrom]
  cases hl : t.get? l with
  | none => rfl
  | some e =>
    cases e with
    | file | link => rfl
    | directory =>
      simp only [hup, Bool.false_eq_true, ↓reduceIte]
      cases hnext : t.get? (l ++ [n]) with
      | none => cases ns <;> simp [resolveFrom]
      | some e =>
        cases e with
        | link target => exact absurd hnext (ht.noLinks _ _)
        | file | directory => simp

/-- Names lead to the location that they spell, or else one of those before the last
is missing or that of a file. -/
theorem resolveFrom_spec (ht : t.Sound) (follow : Bool) (links : Nat) {ns : List String}
    (hns : ∀ n ∈ ns, Path.ValidName n) (l : Location) :
    match t.resolveFrom follow links l ns with
    | .ok k => k = l ++ ns ∧ ∀ m, m <+: ns → m ≠ ns → t.get? (l ++ m) = some .directory
    | .error f => ∃ m, m <+: ns ∧ m ≠ ns ∧
        (f = .missing ∧ t.get? (l ++ m) = none ∨ ∃ b, t.get? (l ++ m) = some (.file b)) := by
  induction ns generalizing l with
  | nil =>
    rw [resolveFrom]
    exact ⟨by simp, fun m hm hne => absurd (List.prefix_nil.mp hm) hne⟩
  | cons n ns ih =>
    have hlast := ih (fun m hm => hns m (by simp [hm])) (l ++ [n])
    rw [resolveFrom_cons ht follow links l (hns n (by simp)).notUp ns]
    cases hl : t.get? l with
    | none => exact ⟨[], by simp, by simp, .inl ⟨rfl, by simpa using hl⟩⟩
    | some e =>
      cases e with
      | link target => exact absurd hl (ht.noLinks _ _)
      | file b => exact ⟨[], by simp, by simp, .inr ⟨b, by simpa using hl⟩⟩
      | directory =>
        simp only
        by_cases hnext : ((t.get? (l ++ [n])).isSome || ns.isEmpty) = true
        · rw [if_pos hnext]
          cases hr : t.resolveFrom follow links (l ++ [n]) ns with
          | ok k =>
            rw [hr] at hlast
            obtain ⟨rfl, hdirs⟩ := hlast
            refine ⟨by simp, fun m hm hne => ?_⟩
            rcases List.prefix_cons_iff.mp hm with rfl | ⟨rest, rfl, hrest⟩
            · simpa using hl
            · simpa using hdirs rest hrest (by simpa using hne)
          | error f =>
            rw [hr] at hlast
            obtain ⟨m, hm, hne, hat⟩ := hlast
            exact ⟨n :: m, by simpa using hm, by simpa using hne, by simpa using hat⟩
        · rw [if_neg hnext]
          simp only [Bool.or_eq_true, List.isEmpty_iff, not_or, Bool.not_eq_true,
            Option.isSome_eq_false_iff, Option.isNone_iff_eq_none] at hnext
          exact ⟨[n], by simp, by simpa using Ne.symm hnext.2, .inl ⟨rfl, hnext.1⟩⟩

theorem resolve_spec (ht : t.Sound) (follow : Bool) {p : Path} (hp : p.Normal) :
    match t.resolve follow p with
    | .ok k => k = p.names ∧ t.Leads p.names
    | .error f => ∃ m, m <+: p.names ∧ m ≠ p.names ∧
        (f = .missing ∧ t.get? m = none ∨ ∃ b, t.get? m = some (.file b)) := by
  have h := resolveFrom_spec ht follow maxLinks hp.names []
  rw [resolve, hp.absolute, if_pos rfl]
  simpa [Leads] using h

theorem resolve_of_leads (ht : t.Sound) (follow : Bool) {p : Path} (hp : p.Normal)
    (h : t.Leads p.names) : t.resolve follow p = .ok p.names := by
  have hspec := resolve_spec ht follow hp
  cases hr : t.resolve follow p with
  | ok k =>
    rw [hr] at hspec
    rw [hspec.1]
  | error f =>
    rw [hr] at hspec
    obtain ⟨m, hm, hne, ⟨-, hnone⟩ | ⟨b, hfile⟩⟩ := hspec
    · rw [h m hm hne] at hnone
      cases hnone
    · rw [h m hm hne] at hfile
      cases hfile

theorem resolve_ok_iff (ht : t.Sound) (follow : Bool) {p : Path} (hp : p.Normal) :
    t.resolve follow p = .ok l ↔ l = p.names ∧ t.Leads p.names := by
  constructor
  · intro h
    have hspec := resolve_spec ht follow hp
    rwa [h] at hspec
  · rintro ⟨rfl, h⟩
    exact resolve_of_leads ht follow hp h

/-! ## Queries -/

theorem find_eq_ok_iff {follow : Bool} {p : Path} :
    t.find follow p = .ok e ↔ ∃ l, t.resolve follow p = .ok l ∧ t.get? l = some e := by
  rw [find]
  cases hr : t.resolve follow p with
  | error f => simp [bind, Except.bind]
  | ok l =>
    cases hg : t.get? l with
    | none => simp [hg, bind, Except.bind, throw, throwThe, MonadExceptOf.throw]
    | some e' => simp [hg, bind, Except.bind, pure, Except.pure]

theorem isDirectory_iff_find {p : Path} :
    t.isDirectory p = true ↔ t.find true p = .ok .directory := by
  rw [isDirectory]
  split <;> simp_all

theorem find_ok_iff (ht : t.Sound) (follow : Bool) {p : Path} (hp : p.Normal) :
    t.find follow p = .ok e ↔ t.get? p.names = some e := by
  rw [find_eq_ok_iff]
  constructor
  · rintro ⟨l, hr, hl⟩
    rwa [((resolve_ok_iff ht follow hp).mp hr).1] at hl
  · intro h
    exact ⟨p.names, resolve_of_leads ht follow hp (ht.leads (by rw [h]; rfl)), h⟩

theorem isThere_iff (ht : t.Sound) {p : Path} (hp : p.Normal) :
    t.isThere p = true ↔ (t.get? p.names).isSome := by
  rw [isThere]
  cases hf : t.find true p with
  | ok e => simp [(find_ok_iff ht true hp).mp hf, Except.isOk, Except.toBool]
  | error f =>
    have hnone : t.get? p.names = none := by
      by_contra hne
      obtain ⟨e, he⟩ := Option.ne_none_iff_exists'.mp hne
      simp [(find_ok_iff ht true hp).mpr he] at hf
    simp [hnone, Except.isOk, Except.toBool]

theorem isDirectory_iff (ht : t.Sound) {p : Path} (hp : p.Normal) :
    t.isDirectory p = true ↔ t.get? p.names = some .directory := by
  rw [← find_ok_iff ht true hp, isDirectory_iff_find]

theorem isFile_iff (ht : t.Sound) {p : Path} (hp : p.Normal) :
    t.isFile p = true ↔ ∃ b, t.get? p.names = some (.file b) := by
  simp only [← find_ok_iff ht true hp, isFile]
  split <;> simp_all

theorem isLink_eq_false (ht : t.Sound) (p : Path) : t.isLink p = false := by
  rw [isLink]
  split
  · rename_i target hf
    obtain ⟨l, -, hl⟩ := find_eq_ok_iff.mp hf
    exact absurd hl (ht.noLinks l target)
  · rfl

theorem read_ok_iff (ht : t.Sound) {p : Path} (hp : p.Normal) {b : List UInt8} :
    t.read p = .ok b ↔ t.get? p.names = some (.file b) := by
  rw [← find_ok_iff ht true hp, read]
  split <;> simp_all

/-! ## Files -/

theorem read_of_isFile {p : Path} (h : t.isFile p = true) : ∃ b, t.read p = .ok b := by
  rw [isFile] at h
  split at h
  · exact ⟨_, by rw [read, ‹t.find true p = _›]⟩
  · cases h

theorem isThere_of_isFile {p : Path} (h : t.isFile p = true) :
    t.isThere p = true ∧ t.isDirectory p = false := by
  rw [isFile] at h
  split at h
  · rename_i b hfind
    refine ⟨?_, by rw [isDirectory, hfind]⟩
    rw [isThere, hfind]
    rfl
  · cases h

end SceneSync.FileTree
