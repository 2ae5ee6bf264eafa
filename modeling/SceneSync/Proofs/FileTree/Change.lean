import Mathlib
import SceneSync.Proofs.Execution
import SceneSync.Proofs.FileTree.Sound

/-!
# Changes of sound trees

What each change does to a sound tree: where it happens, what it leaves alone, and
when it cannot fail.
-/

namespace SceneSync.FileTree

variable {t t' t'' : FileTree} {l m : Location} {p : Path}

theorem execute_raise {α : Type} (f : FileFault) (p : Path) (t : FileTree) :
    execute (raise f p : Change α) t = (.error ⟨f, p⟩, t) := rfl

theorem execute_locate (follow : Bool) (p : Path) (t : FileTree) :
    execute (locate follow p) t = match t.resolve follow p with
      | .ok l => (.ok l, t)
      | .error f => (.error ⟨f, p⟩, t) := by
  rw [locate, execute_bind, execute_get]
  simp only
  cases t.resolve follow p <;> rfl

theorem preserves_locate {P : FileTree → Prop} (follow : Bool) (p : Path) :
    Preserves P (locate follow p) := by
  refine .bind .get fun t => ?_
  split
  · exact .pure _
  · exact .throw _

/-! ## One entry -/

theorem execute_write (ht : t.Sound) (hp : p.Normal) (b : List UInt8) (hl : t.Leads p.names)
    (hnot : t.get? p.names ≠ some .directory) :
    execute (write p b) t = (.ok (), t.put p.names (.file b)) := by
  rw [write, execute_bind, execute_locate, resolve_of_leads ht true hp hl]
  simp only [execute_bind, execute_get]
  rfl

theorem execute_write_fails (ht : t.Sound) (hp : p.Normal) (b : List UInt8)
    (h : ¬ (t.Leads p.names ∧ t.get? p.names ≠ some .directory)) :
    ∃ f, execute (write p b) t = (.error ⟨f, p⟩, t) := by
  rw [write, execute_bind, execute_locate]
  cases hr : t.resolve true p with
  | error f => exact ⟨f, rfl⟩
  | ok k =>
    obtain ⟨rfl, hl⟩ := (resolve_ok_iff ht true hp).mp hr
    have hdir : t.get? p.names = some .directory := by
      by_contra hnot
      exact h ⟨hl, hnot⟩
    simp only [execute_bind, execute_get, hdir]
    exact ⟨_, rfl⟩

theorem execute_makeDirectory (ht : t.Sound) (hp : p.Normal) (hl : t.Leads p.names)
    (hnone : t.get? p.names = none) :
    execute (makeDirectory p) t = (.ok (), t.put p.names .directory) := by
  rw [makeDirectory, execute_bind, execute_locate, resolve_of_leads ht false hp hl]
  simp only [execute_bind, execute_get, hnone]
  rfl

theorem makeDirectory_ok (ht : t.Sound) (hp : p.Normal)
    (h : execute (makeDirectory p) t = (.ok (), t')) :
    t.Leads p.names ∧ t.get? p.names = none ∧ t' = t.put p.names .directory := by
  rw [makeDirectory, execute_bind, execute_locate] at h
  cases hr : t.resolve false p with
  | error f => simp [hr] at h
  | ok k =>
    obtain ⟨rfl, hl⟩ := (resolve_ok_iff ht false hp).mp hr
    cases hg : t.get? p.names with
    | some e => simp [hr, execute_bind, hg, execute_raise] at h
    | none =>
      simp only [hr, execute_bind, execute_get, hg, execute_modify, Prod.mk.injEq, true_and] at h
      exact ⟨hl, rfl, h.symm⟩

theorem write_ok (ht : t.Sound) (hp : p.Normal) {b : List UInt8}
    (h : execute (write p b) t = (.ok (), t')) :
    t.Leads p.names ∧ t.get? p.names ≠ some .directory ∧ t' = t.put p.names (.file b) := by
  by_cases hwrite : t.Leads p.names ∧ t.get? p.names ≠ some .directory
  · rw [execute_write ht hp b hwrite.1 hwrite.2] at h
    exact ⟨hwrite.1, hwrite.2, (Prod.mk.inj h).2.symm⟩
  · obtain ⟨f, hf⟩ := execute_write_fails ht hp b hwrite
    rw [hf] at h
    cases h

/-! ## Directories on the way -/

/-- Nothing but directories stands on the way to a location, nor there. -/
def Clear (t : FileTree) (l : Location) : Prop :=
  ∀ m, m <+: l → t.get? m = none ∨ t.get? m = some .directory

theorem Clear.above (h : t.Clear l) (hm : m <+: l) : t.Clear m :=
  fun _ hk => h _ (hk.trans hm)

/-- Nothing has happened but that directories were made on the way to a location. -/
structure Opens (l : Location) (t t' : FileTree) : Prop where
  elsewhere : ∀ m, ¬ m <+: l → t'.get? m = t.get? m
  onTheWay : ∀ m, m <+: l →
    t'.get? m = t.get? m ∨ t.get? m = none ∧ t'.get? m = some .directory
  sound : t'.Sound
  current : t'.current = t.current

theorem Opens.refl (ht : t.Sound) (l : Location) : Opens l t t :=
  ⟨fun _ _ => rfl, fun _ _ => .inl rfl, ht, rfl⟩

theorem Opens.trans (h : Opens l t t') (h' : Opens l t' t'') : Opens l t t'' := by
  refine ⟨fun m hm => (h'.elsewhere m hm).trans (h.elsewhere m hm), fun m hm => ?_, h'.sound,
    h'.current.trans h.current⟩
  rcases h.onTheWay m hm with heq | ⟨hnone, hdir⟩
  · rw [← heq]
    exact h'.onTheWay m hm
  · rcases h'.onTheWay m hm with heq' | ⟨hnone', -⟩
    · exact .inr ⟨hnone, heq'.trans hdir⟩
    · rw [hdir] at hnone'
      cases hnone'

theorem Opens.mono (h : Opens m t t') (hm : m <+: l) : Opens l t t' := by
  refine ⟨fun k hk => h.elsewhere k fun hkm => hk (hkm.trans hm), fun k _ => ?_, h.sound,
    h.current⟩
  by_cases hkm : k <+: m
  · exact h.onTheWay k hkm
  · exact .inl (h.elsewhere k hkm)

theorem Opens.clear (h : Opens l t t') (hc : t.Clear m) : t'.Clear m := by
  intro k hk
  by_cases hkl : k <+: l
  · rcases h.onTheWay k hkl with heq | ⟨-, hdir⟩
    · rw [heq]
      exact hc k hk
    · exact .inr hdir
  · rw [h.elsewhere k hkl]
    exact hc k hk

theorem Opens.put (ht : t.Sound) (hl : t.Leads l) (hnone : t.get? l = none)
    (hn : ∀ n ∈ l, Path.ValidName n) : Opens l t (t.put l .directory) := by
  rcases List.eq_nil_or_concat l with rfl | ⟨k, n, rfl⟩
  · simp at hnone
  · rw [List.concat_eq_append] at *
    have hget := get?_put t (l := k ++ [n]) (by simp) .directory
    refine ⟨fun m hm => ?_, fun m hm => ?_, ?_, by simp⟩
    · rw [hget, if_neg (by rintro rfl; exact hm List.prefix_rfl)]
    · rw [hget]
      split
      · rename_i hml
        subst hml
        exact .inr ⟨hnone, rfl⟩
      · exact .inl rfl
    · exact ht.put (leads_append.mp hl).2 (hn n (by simp)) (by simp) (.inr rfl)

/-- The directory is there afterwards, or nothing has changed. -/
theorem execute_ensureDirectory (ht : t.Sound) (hp : p.Normal) :
    (∃ t', execute (ensureDirectory p) t = (.ok (), t') ∧ Opens p.names t t' ∧
      t'.get? p.names = some .directory) ∨
    (∃ f, execute (ensureDirectory p) t = (.error ⟨f, p⟩, t) ∧
      (t.Clear p.names → f = .missing ∧ ¬ t.Leads p.names)) := by
  have hfails (f : FileFault) (hmake : execute (makeDirectory p) t = (.error ⟨f, p⟩, t)) :
      execute (ensureDirectory p) t =
        if f == .missing || !t.isDirectory p then (.error ⟨f, p⟩, t) else (.ok (), t) := by
    rw [ensureDirectory, execute_tryCatch_error hmake, execute_bind, execute_get]
    simp only
    split <;> rfl
  have hspec := resolve_spec ht false hp
  cases hr : t.resolve false p with
  | error f =>
    rw [hr] at hspec
    obtain ⟨m, hm, hne, hat⟩ := hspec
    have hleads : ¬ t.Leads p.names := by
      intro hl
      rw [hl m hm hne] at hat
      rcases hat with ⟨-, h⟩ | ⟨b, h⟩ <;> cases h
    have hdir : t.isDirectory p = false := by
      by_contra htrue
      have hthere := (isDirectory_iff ht hp).mp (by simpa using htrue)
      exact hleads (ht.leads (by rw [hthere]; rfl))
    have hmake : execute (makeDirectory p) t = (.error ⟨f, p⟩, t) := by
      rw [makeDirectory, execute_bind, execute_locate, hr]
    refine .inr ⟨f, by rw [hfails f hmake, hdir]; simp, fun hc => ⟨?_, hleads⟩⟩
    rcases hat with ⟨hf, -⟩ | ⟨b, hb⟩
    · exact hf
    · rcases hc m hm with hnone | hdir' <;> simp_all
  | ok k =>
    rw [hr] at hspec
    obtain ⟨rfl, hl⟩ := hspec
    cases hg : t.get? p.names with
    | none =>
      refine .inl ⟨t.put p.names .directory, ?_, Opens.put ht hl hg hp.names, ?_⟩
      · rw [ensureDirectory, execute_tryCatch_ok (execute_makeDirectory ht hp hl hg)]
      · rw [get?_put _ (by rintro hnil; rw [hnil] at hg; cases hg), if_pos rfl]
    | some e =>
      have hmake : execute (makeDirectory p) t = (.error ⟨.occupied, p⟩, t) := by
        rw [makeDirectory, execute_bind, execute_locate, hr]
        simp only [execute_bind, execute_get, hg]
        rfl
      by_cases he : e = .directory
      · subst he
        have hdir := (isDirectory_iff ht hp).mpr hg
        exact .inl ⟨t, by rw [hfails _ hmake, hdir]; rfl, Opens.refl ht _, hg⟩
      · have hdir : t.isDirectory p = false := by
          by_contra htrue
          have hthere := (isDirectory_iff ht hp).mp (by simpa using htrue)
          rw [hg] at hthere
          exact he (Option.some.inj hthere)
        refine .inr ⟨.occupied, by rw [hfails _ hmake, hdir]; rfl, fun hc => ?_⟩
        rcases hc p.names List.prefix_rfl with hnone | hdir' <;> simp_all

/-- Everything above the location is there once its parent is. -/
theorem Opens.leads {n : String} (h : Opens l t t') (hdir : t'.get? l = some .directory) :
    t'.Leads (l ++ [n]) :=
  leads_append.mpr ⟨h.sound.leads (by rw [hdir]; rfl), hdir⟩

theorem execute_ensureDirectoriesAux (ht : t.Sound) {anchor : Anchor} (ha : anchor ≠ .relative)
    {ns : List String} (hns : ∀ n ∈ ns, Path.ValidName n) :
    ∃ r t', execute (ensureDirectoriesAux anchor ns) t = (r, t') ∧ Opens ns.reverse t t' ∧
      (r = .ok () → t'.get? ns.reverse = some .directory) ∧ (t.Clear ns.reverse → r = .ok ()) := by
  induction ns with
  | nil =>
    have hp : (Path.mk anchor []).Normal := ⟨by simpa [Path.isAbsolute] using ha, by simp⟩
    rcases execute_ensureDirectory ht hp with ⟨t', he, ho, hdir⟩ | ⟨f, he, hf⟩
    · exact ⟨_, _, he, ho, fun _ => hdir, fun _ => rfl⟩
    · refine ⟨_, _, he, Opens.refl ht _, by simp, fun hc => absurd ?_ (hf hc).2⟩
      intro m hm hne
      exact absurd (List.prefix_nil.mp hm) hne
  | cons n ns ih =>
    have hvalid : ∀ k ∈ (n :: ns).reverse, Path.ValidName k :=
      fun k hk => hns k (List.mem_reverse.mp hk)
    have hp : (Path.mk anchor (n :: ns).reverse).Normal :=
      ⟨by simpa [Path.isAbsolute] using ha, hvalid⟩
    have hparent : ns.reverse <+: (n :: ns).reverse := by simp
    rcases execute_ensureDirectory ht hp with ⟨t', he, ho, hdir⟩ | ⟨f, he, hf⟩
    · exact ⟨_, _, by rw [ensureDirectoriesAux, execute_tryCatch_ok he], ho, fun _ => hdir,
        fun _ => rfl⟩
    · rw [ensureDirectoriesAux, execute_tryCatch_error he]
      by_cases hmissing : f = .missing
      · subst hmissing
        obtain ⟨r, t₁, haux, hopens, hdone, hclear⟩ := ih fun k hk => hns k (by simp [hk])
        have hopens' := hopens.mono hparent
        simp only [bne_self_eq_false, Bool.false_eq_true, ↓reduceIte, execute_bind, haux]
        cases r with
        | error e =>
          refine ⟨_, _, rfl, hopens', by simp, fun hc => ?_⟩
          cases hclear (hc.above hparent)
        | ok =>
          simp only
          rcases execute_ensureDirectory hopens.sound hp with ⟨t', he', ho', hdir⟩ | ⟨f, he', hf'⟩
          · exact ⟨_, _, he', hopens'.trans ho', fun _ => hdir, fun _ => rfl⟩
          · refine ⟨_, _, he', hopens', by simp, fun hc => absurd ?_ (hf' (hopens.clear hc)).2⟩
            simpa using hopens.leads (n := n) (hdone rfl)
      · have hthrow : (f != .missing) = true := by simp [hmissing]
        simp only [hthrow, ↓reduceIte]
        exact ⟨_, _, rfl, Opens.refl ht _, by simp, fun hc => absurd (hf hc).1 hmissing⟩

/-- Making all directories of a path only makes directories on the way, and it succeeds
unless something else stands there. -/
theorem execute_ensureDirectories (ht : t.Sound) (hp : p.Normal) :
    ∃ r t', execute (ensureDirectories p) t = (r, t') ∧ Opens p.names t t' ∧
      (r = .ok () → t'.get? p.names = some .directory) ∧ (t.Clear p.names → r = .ok ()) := by
  have hanchor : p.anchor ≠ .relative := by simpa [Path.isAbsolute] using hp.absolute
  have hnames : ∀ n ∈ p.names.reverse, Path.ValidName n :=
    fun n hn => hp.names n (List.mem_reverse.mp hn)
  have h := execute_ensureDirectoriesAux ht hanchor hnames
  rwa [List.reverse_reverse] at h

/-! ## Bringing an entry -/

def SameKind : Entry → Entry → Prop
  | .file _, .file _ => True
  | .directory, .directory => True
  | _, _ => False

theorem SameKind.trans {e₁ e₂ e₃ : Entry} (h : SameKind e₁ e₂) (h' : SameKind e₂ e₃) :
    SameKind e₁ e₃ := by
  cases e₁ <;> cases e₂ <;> cases e₃ <;> simp_all [SameKind]

theorem Sound.sameKind_self {e : Entry} (ht : t.Sound) (h : t.get? l = some e) :
    SameKind e e := by
  cases e with
  | link target => exact absurd h (ht.noLinks _ _)
  | file | directory => trivial

theorem prefix_append_cases {n : Location} (h : m <+: l ++ n) :
    m <+: l ∨ ∃ k, m = l ++ k ∧ k <+: n := by
  rcases List.prefix_or_prefix_of_prefix h (List.prefix_append l n) with hm | hm
  · exact .inl hm
  · obtain ⟨k, rfl⟩ := hm
    exact .inr ⟨k, rfl, (List.prefix_append_right_inj l).mp h⟩

/-- Nothing has happened but that directories were made on the way to a location, and
that the entry may stand there now. -/
structure Brings (l : Location) (e : Entry) (t t' : FileTree) : Prop where
  elsewhere : ∀ m, ¬ m <+: l → t'.get? m = t.get? m
  above : ∀ m, m <+: l → m ≠ l →
    t'.get? m = t.get? m ∨ t.get? m = none ∧ t'.get? m = some .directory
  target : t'.get? l = t.get? l ∨
    (∀ e', t.get? l = some e' → SameKind e' e) ∧ t'.get? l = some e
  sound : t'.Sound
  current : t'.current = t.current

theorem Brings.refl (ht : t.Sound) (l : Location) (e : Entry) : Brings l e t t :=
  ⟨fun _ _ => rfl, fun _ _ _ => .inl rfl, .inl rfl, ht, rfl⟩

/-- Nothing stands in the way of the entry. -/
def Ready (t : FileTree) (l : Location) (e : Entry) : Prop :=
  (∀ m, m <+: l → m ≠ l → t.get? m = none ∨ t.get? m = some .directory) ∧
    ∀ e', t.get? l = some e' → SameKind e' e

theorem Opens.brings (h : Opens l t t') : Brings l .directory t t' := by
  refine ⟨h.elsewhere, fun m hm _ => h.onTheWay m hm, ?_, h.sound, h.current⟩
  rcases h.onTheWay l List.prefix_rfl with heq | ⟨hnone, hdir⟩
  · exact .inl heq
  · refine .inr ⟨fun e' he' => ?_, hdir⟩
    rw [he'] at hnone
    cases hnone

theorem Ready.clear (h : t.Ready l .directory) : t.Clear l := by
  intro m hm
  by_cases hml : m = l
  · subst hml
    cases hg : t.get? m with
    | none => exact .inl rfl
    | some e =>
      have hkind := h.2 e hg
      cases e with
      | directory => exact .inr rfl
      | file | link => exact hkind.elim
  · exact h.1 m hm hml

/-- A file put where its directory is and no directory stands. -/
theorem Brings.put (ht : t.Sound) {n : String} (b : List UInt8)
    (hl : t.get? l = some .directory) (hn : Path.ValidName n)
    (hnot : t.get? (l ++ [n]) ≠ some .directory) :
    Brings (l ++ [n]) (.file b) t (t.put (l ++ [n]) (.file b)) := by
  have hget := get?_put t (l := l ++ [n]) (by simp) (.file b)
  refine ⟨fun m hm => ?_, fun m _ hne => ?_, .inr ⟨fun e' he' => ?_, ?_⟩, ?_, by simp⟩
  · rw [hget, if_neg (by rintro rfl; exact hm List.prefix_rfl)]
  · rw [hget, if_neg hne]
    exact .inl rfl
  · cases e' with
    | file => trivial
    | directory => exact absurd he' hnot
    | link target => exact absurd he' (ht.noLinks _ _)
  · rw [hget, if_pos rfl]
  · exact ht.put hl hn (by simp) (.inl hnot)

theorem Opens.trans_brings {e : Entry} (h : Opens m t t') (hm : m <+: l) (hne : m ≠ l)
    (h' : Brings l e t' t'') : Brings l e t t'' := by
  have hl : ¬ l <+: m := fun hlm => hne (hm.eq_of_length_le hlm.length_le)
  have hopens := h.mono hm
  refine ⟨fun k hk => (h'.elsewhere k hk).trans (hopens.elsewhere k hk), fun k hk hkl => ?_, ?_,
    h'.sound, h'.current.trans h.current⟩
  · rcases hopens.onTheWay k hk with heq | ⟨hnone, hdir⟩
    · rw [← heq]
      exact h'.above k hk hkl
    · rcases h'.above k hk hkl with heq' | ⟨hnone', -⟩
      · exact .inr ⟨hnone, heq'.trans hdir⟩
      · rw [hdir] at hnone'
        cases hnone'
  · rw [← h.elsewhere l hl]
    exact h'.target

/-- Elsewhere no file comes or goes, nor changes. -/
theorem Brings.file_iff {e : Entry} (h : Brings l e t t') (hm : m ≠ l) {b : List UInt8} :
    t'.get? m = some (.file b) ↔ t.get? m = some (.file b) := by
  by_cases hml : m <+: l
  · rcases h.above m hml hm with heq | ⟨hnone, hdir⟩
    · rw [heq]
    · simp [hnone, hdir]
  · rw [h.elsewhere m hml]

theorem Brings.directory {e : Entry} (h : Brings l e t t') (hm : t.get? m = some .directory) :
    t'.get? m = some .directory := by
  by_cases hml : m <+: l
  · by_cases heq : m = l
    · subst heq
      rcases h.target with hsame | ⟨hkind, hnew⟩
      · rw [hsame, hm]
      · have := hkind _ hm
        cases e with
        | directory => exact hnew
        | file | link => exact this.elim
    · rcases h.above m hml heq with hsame | ⟨hnone, -⟩
      · rw [hsame, hm]
      · rw [hm] at hnone
        cases hnone
  · rw [h.elsewhere m hml, hm]

/-- After a file has been brought the way to its neighbours is as free as before. -/
theorem Ready.brings {n k : String} {b b' : List UInt8} (h : t.Ready (l ++ [n]) (.file b))
    (hbrings : Brings (l ++ [k]) (.file b') t t') : t'.Ready (l ++ [n]) (.file b) := by
  refine ⟨fun m hm hne => ?_, fun e he => ?_⟩
  · have hml : m <+: l := by
      rcases prefix_append_cases hm with hm | ⟨r, rfl, hr⟩
      · exact hm
      · rcases List.prefix_cons_iff.mp hr with rfl | ⟨r', rfl, hr'⟩
        · simp
        · obtain rfl := List.prefix_nil.mp hr'
          exact absurd rfl hne
    have hmk : m ≠ l ++ [k] := by
      rintro rfl
      simpa using hml.length_le
    rcases hbrings.above m (hml.trans (List.prefix_append l [k])) hmk with hsame | ⟨-, hdir⟩
    · rw [hsame]
      exact h.1 m hm hne
    · exact .inr hdir
  · by_cases hkn : l ++ [n] = l ++ [k]
    · rw [hkn] at he h
      rcases hbrings.target with hsame | ⟨-, hnew⟩
      · exact h.2 e (hsame ▸ he)
      · obtain rfl := Option.some.inj (hnew.symm.trans he)
        trivial
    · have hnot : ¬ l ++ [n] <+: l ++ [k] := fun hnear =>
        hkn (hnear.eq_of_length (by simp))
      rw [hbrings.elsewhere _ hnot] at he
      exact h.2 e he

/-! ## Removal -/

theorem execute_remove_of_resolve (hr : t.resolve false p = .ok l) {e : Entry}
    (he : t.get? l = some e) (hne : e ≠ .directory) : execute (remove p) t = (.ok (), t.erase l) := by
  rw [remove, execute_bind, execute_locate, hr]
  simp only [execute_bind, execute_get, he]
  rfl

theorem execute_remove (ht : t.Sound) (hp : p.Normal) {e : Entry} (he : t.get? p.names = some e)
    (hne : e ≠ .directory) : execute (remove p) t = (.ok (), t.erase p.names) :=
  execute_remove_of_resolve (resolve_of_leads ht false hp (ht.leads (by rw [he]; rfl))) he hne

theorem execute_removeDirectory_of_resolve (hr : t.resolve false p = .ok l)
    (hdir : t.get? l = some .directory) (hempty : ∀ n, t.get? (l ++ [n]) = none) :
    execute (removeDirectory p) t = (.ok (), t.erase l) := by
  have hnames : (t.namesIn l).isEmpty = true := by
    rw [List.isEmpty_iff, List.eq_nil_iff_forall_not_mem]
    intro n hn
    rw [mem_namesIn, hempty] at hn
    cases hn
  rw [removeDirectory, execute_bind, execute_locate, hr]
  simp only [execute_bind, execute_get, hdir, hnames]
  rfl

theorem execute_removeDirectory (ht : t.Sound) (hp : p.Normal)
    (hdir : t.get? p.names = some .directory) (hempty : ∀ n, t.get? (p.names ++ [n]) = none) :
    execute (removeDirectory p) t = (.ok (), t.erase p.names) :=
  execute_removeDirectory_of_resolve
    (resolve_of_leads ht false hp (ht.leads (by rw [hdir]; rfl))) hdir hempty

theorem execute_removeAll (ht : t.Sound) (hp : p.Normal)
    (hdir : t.get? p.names = some .directory) :
    execute (removeAll p) t = (.ok (), t.erase p.names) := by
  have hcleared : (t.clear p.names).get? p.names = some .directory := by
    rw [get?_clear, if_neg (by simp), hdir]
  have hempty (n : String) : (t.clear p.names).get? (p.names ++ [n]) = none := by
    rw [get?_clear, if_pos (by simp)]
  rw [removeAll, execute_bind, execute_locate,
    resolve_of_leads ht false hp (ht.leads (by rw [hdir]; rfl))]
  simp only [execute_bind, execute_get, hdir, execute_modify]
  rw [execute_removeDirectory (ht.clear _) hp hcleared hempty, erase_clear]

theorem remove_ok (ht : t.Sound) (hp : p.Normal) (h : execute (remove p) t = (.ok (), t')) :
    t' = t.erase p.names := by
  rw [remove, execute_bind, execute_locate] at h
  cases hr : t.resolve false p with
  | error f => simp [hr] at h
  | ok k =>
    obtain ⟨rfl, -⟩ := (resolve_ok_iff ht false hp).mp hr
    simp only [hr, execute_bind, execute_get] at h
    split at h
    · simp [execute_raise] at h
    · exact (Prod.mk.inj h).2.symm
    · simp [execute_raise] at h

theorem removeAll_ok (ht : t.Sound) (hp : p.Normal)
    (h : execute (removeAll p) t = (.ok (), t')) : t' = t.erase p.names := by
  by_cases hdir : t.get? p.names = some .directory
  · rw [execute_removeAll ht hp hdir] at h
    exact (Prod.mk.inj h).2.symm
  · rw [removeAll, execute_bind, execute_locate] at h
    cases hr : t.resolve false p with
    | error f => simp [hr] at h
    | ok k =>
      obtain ⟨rfl, -⟩ := (resolve_ok_iff ht false hp).mp hr
      simp only [hr, execute_bind, execute_get] at h
      split at h
      · exact absurd ‹_› hdir
      · simp [execute_raise] at h
      · simp [execute_raise] at h

end SceneSync.FileTree
