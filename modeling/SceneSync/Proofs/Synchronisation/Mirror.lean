import Mathlib
import SceneSync.Proofs.Synchronisation.Separate
import SceneSync.Proofs.Synchronisation.Update
import SceneSync.Watch

/-!
# The pure mirror

Without a conversion directory files are copied as they are. What an addition and a
removal then do to the tree does not depend on what a file says.
-/

namespace SceneSync.Syncer

open FileTree

/-- A synchronisation that converts nothing, between two directories of which neither
lies in the other. -/
structure PureMirror (s : Syncer) : Prop extends Separate s where
  convertsNothing : s.configuration.conversionDir = none

variable {s : Syncer} {t t' : FileTree} {w : World} {p q : List String} {e : Entry}

/-! ## Additions -/

/-- What adding a path may do to a tree: nothing when the path is excluded or gone, and
else it brings the entry, without fail when nothing stands in its way. -/
inductive Adds (s : Syncer) (p : List String) (t t' : FileTree) : Prop
  | ignored : t' = t → (s.Keeps p → s.source? t p = none) → Adds s p t t'
  | brought {e : Entry} : s.Keeps p → s.source? t p = some e →
      Brings (s.outputRoot.names ++ p) e t t' →
      (t.Ready (s.outputRoot.names ++ p) e → s.output? t' p = some e) → Adds s p t t'

theorem execute_converted? (hs : s.PureMirror) (source : Path) (w : World) :
    execute (s.converted? source) w = (.ok none, w) := by
  have h (cwd : Path) : s.configuration.scriptOptions.isEligible cwd source = false := by
    simp [ScriptOptions.isEligible, Configuration.scriptOptions, hs.convertsNothing]
  rw [converted?, execute_bind, Work.execute_tree]
  simp [h]

theorem execute_addFile (hs : s.PureMirror) (source target : Path) (w : World) :
    execute (s.addFile source target) w = execute (copy source target none) w := by
  have hattempt : execute (tryCatch (do return .ok (← s.converted? source))
      (fun e => if e.spoilsConversion then return .error e else throw e) :
        Work (Except Failure (Option (List Char)))) w = (.ok (.ok none), w) := by
    rw [execute_tryCatch, execute_bind, execute_converted? hs]
    rfl
  rw [addFile, execute_bind, hattempt]

theorem execute_copy (ht : w.tree.Sound) {source target : Path} (hsource : source.Normal)
    (htarget : target.Normal) (hne : target.names ≠ []) (error : Option String) {b : List UInt8}
    (hb : w.tree.get? source.names = some (.file b)) :
    ∃ r t', execute (copy source target error) w = (r, { w with tree := t' }) ∧
      Brings target.names (.file b) w.tree t' ∧ (∀ f, r = .error f → f.isFile) ∧
      (∀ o, r = .ok o → t'.get? target.names = some (.file b)) ∧
      (w.tree.Ready target.names (.file b) → ∃ o, r = .ok o) := by
  obtain ⟨r, t', hupdate, hbrings, hdone, herror, hready⟩ := execute_update ht htarget hne b
  have hread := (read_ok_iff ht hsource).mpr hb
  rw [copy, execute_bind, execute_readBytes, hread]
  simp only [Except.mapError, execute_bind, hupdate]
  cases r with
  | error f => exact ⟨_, _, rfl, hbrings, fun g hg => herror g (by simpa using hg), by simp,
      fun h => by obtain ⟨x, hx⟩ := hready h; cases hx⟩
  | ok x => exact ⟨_, _, rfl, hbrings, by simp, fun _ _ => hdone x rfl, fun _ => ⟨_, rfl⟩⟩

/-- Adding a path of the watched directory. -/
theorem execute_addAlone (hs : s.PureMirror) (ht : w.tree.Sound)
    (hp : ∀ n ∈ p, Path.ValidName n) :
    ∃ r t', execute (s.addAlone (s.sourceAt p)) w = (r, { w with tree := t' }) ∧
      Adds s p w.tree t' ∧ ∀ f, r = .error f → f.isFile := by
  have hsource := hs.source_normal hp
  have htarget := hs.target_normal hp
  have hne : (s.targetAt p).names ≠ [] := by simp [hs.output_ne_nil]
  rw [addAlone, execute_bind, Work.execute_tree]
  simp only
  by_cases hignored : (s.excludes (s.sourceAt p).toString || !w.tree.isThere (s.sourceAt p)) = true
  · rw [if_pos hignored]
    refine ⟨_, w.tree, rfl, .ignored rfl fun hkeep => ?_, by simp⟩
    rw [Keeps] at hkeep
    rw [hkeep, Bool.false_or, Bool.not_eq_true', ← Bool.not_eq_true, isThere_iff ht hsource] at hignored
    exact Option.not_isSome_iff_eq_none.mp hignored
  · simp only [Bool.or_eq_true, not_or, Bool.not_eq_true, Bool.not_eq_false'] at hignored
    obtain ⟨hkeep, hthere⟩ := hignored
    obtain ⟨e, he⟩ := Option.isSome_iff_exists.mp ((isThere_iff ht hsource).mp hthere)
    rw [if_neg (by simp [hkeep, hthere]), execute_bind_ok (execute_target_ok (hs.outputPath hp _))]
    by_cases hdir : w.tree.isDirectory (s.sourceAt p) = true
    · obtain rfl : e = .directory := by
        rw [isDirectory_iff ht hsource, he] at hdir
        exact Option.some.inj hdir
      rw [if_pos hdir]
      by_cases hthere' : w.tree.isDirectory (s.targetAt p) = true
      · rw [if_pos hthere']
        refine ⟨_, w.tree, rfl, .brought hkeep he (.refl ht _ _) fun _ => ?_, by simp⟩
        exact (isDirectory_iff ht htarget).mp hthere'
      · obtain ⟨r, t', hens, hopens, hdone, hclear⟩ := execute_ensureDirectories ht htarget
        have hadds : Adds s p w.tree t' :=
          .brought hkeep he hopens.brings fun h => hdone (hclear h.clear)
        rw [if_neg hthere', execute_bind, Work.execute_change hens]
        cases r with
        | error e => exact ⟨_, t', rfl, hadds, by rintro f ⟨⟩; rfl⟩
        | ok => exact ⟨_, t', rfl, hadds, by simp⟩
    · rw [if_neg hdir, execute_addFile hs]
      cases e with
      | directory => exact absurd ((isDirectory_iff ht hsource).mpr he) hdir
      | link target => exact absurd he (ht.noLinks _ _)
      | file b =>
        obtain ⟨r, t', hcopy, hbrings, herror, hdone, hready⟩ :=
          execute_copy ht hsource htarget hne none he
        refine ⟨r, t', hcopy, .brought hkeep he hbrings fun h => ?_, herror⟩
        obtain ⟨o, ho⟩ := hready h
        exact hdone o ho

theorem Adds.sound (h : Adds s p t t') (ht : t.Sound) : t'.Sound := by
  cases h with
  | ignored heq _ => rwa [heq]
  | brought _ _ hbrings _ => exact hbrings.sound

theorem Adds.source?_eq (hs : s.PureMirror) (h : Adds s p t t') (q : List String) :
    s.source? t' q = s.source? t q := by
  cases h with
  | ignored heq _ => rw [heq]
  | brought _ _ hbrings _ => exact hbrings.elsewhere _ (source_not_above hs.toSeparate p q)

/-- An addition leaves an entry of the output as it is, or makes it that of the source. -/
theorem Adds.output?_cases (hs : s.PureMirror) (ht : t.Sound) (h : Adds s p t t')
    (q : List String) : s.output? t' q = s.output? t q ∨
      s.Keeps q ∧ ∃ e, s.source? t q = some e ∧ s.output? t' q = some e ∧
        ∀ e', s.output? t q = some e' → SameKind e' e := by
  cases h with
  | ignored heq _ => exact .inl (by rw [heq])
  | @brought e hkeep he hbrings _ =>
    by_cases hqp : q <+: p
    · by_cases heq : q = p
      · subst heq
        rcases hbrings.target with hsame | ⟨hkind, hnew⟩
        · exact .inl hsame
        · exact .inr ⟨hkeep, e, he, hnew, hkind⟩
      · have hon : s.outputRoot.names ++ q <+: s.outputRoot.names ++ p :=
          (List.prefix_append_right_inj _).mpr hqp
        rcases hbrings.above _ hon (by simpa using heq) with hsame | ⟨hnone, hdir⟩
        · exact .inl hsame
        · refine .inr ⟨hkeep.above hs.toSeparate hqp, .directory, source?_above ht he hqp heq, hdir, ?_⟩
          intro e' he'
          rw [output?, hnone] at he'
          cases he'
    · exact .inl (hbrings.elsewhere _ fun h => hqp ((List.prefix_append_right_inj _).mp h))

theorem Adds.clear (h : Adds s p t t') (hroot : s.source? t [] = some .directory)
    (hc : t.Clear s.outputRoot.names) : t'.Clear s.outputRoot.names := by
  cases h with
  | ignored heq _ => rwa [heq]
  | @brought e hkeep he hbrings _ =>
    intro m hm
    by_cases heq : m = s.outputRoot.names ++ p
    · -- The output directory itself is brought as what the watched one is.
      obtain rfl : p = [] := by
        have := hm.length_le
        rw [heq, List.length_append] at this
        exact List.eq_nil_of_length_eq_zero (by omega)
      obtain rfl : e = .directory := Option.some.inj (he.symm.trans hroot)
      rcases hbrings.target with hsame | ⟨-, hnew⟩
      · rw [heq, hsame, ← heq]
        exact hc m hm
      · rw [heq]
        exact .inr hnew
    · rcases hbrings.above m (hm.trans (List.prefix_append _ p)) heq with hsame | ⟨-, hdir⟩
      · rw [hsame]
        exact hc m hm
      · exact .inr hdir

/-- Some path of the watched directory has been added. -/
def AddsSome (s : Syncer) (t t' : FileTree) : Prop :=
  ∃ p, (∀ n ∈ p, Path.ValidName n) ∧ Adds s p t t'

/-- Paths of the watched directory have been added, one after the other. -/
abbrev AddsMany (s : Syncer) : FileTree → FileTree → Prop := Relation.ReflTransGen (AddsSome s)

theorem AddsMany.sound (h : AddsMany s t t') (ht : t.Sound) : t'.Sound := by
  induction h with
  | refl => exact ht
  | tail _ hstep ih =>
    obtain ⟨_, _, hadds⟩ := hstep
    exact hadds.sound ih

/-- A script beside a path of the watched directory lies there too. -/
theorem execute_script (hs : s.PureMirror) (hp : ∀ n ∈ p, Path.ValidName n) (hne : p ≠ [])
    {ext : String} (hext : ext = ".js" ∨ ext = ".ts") (w : World) :
    ∃ q, (∀ n ∈ q, Path.ValidName n) ∧
      execute (Work.ofExcept Failure.naming ((s.sourceAt p).withSuffix ext)) w =
        (.ok (s.sourceAt q), w) := by
  obtain ⟨n, hn, hsuffix⟩ := Path.withSuffix_of_valid (p := s.sourceAt p) (by simp [hne])
    (hs.source_normal hp).names hext
  refine ⟨p.dropLast ++ [n], fun k hk => ?_, ?_⟩
  · rcases List.mem_append.mp hk with hk | hk
    · exact hp k (List.mem_of_mem_dropLast hk)
    · rwa [List.mem_singleton.mp hk]
  · rw [hsuffix, Work.execute_ofExcept_ok]
    simp [Path.replaceName, sourceAt, Path.extend, List.dropLast_append_of_ne_nil hne]

/-- The scripts of a descriptor are added one by one, as far as no fault of a file comes
between. -/
theorem execute_addScriptsOf (hs : s.PureMirror) (ht : w.tree.Sound)
    (hp : ∀ n ∈ p, Path.ValidName n) (hne : p ≠ []) :
    ∃ r t', execute (s.addScriptsOf (s.sourceAt p)) w = (r, { w with tree := t' }) ∧
      AddsMany s w.tree t' ∧ ∀ f, r = .error f → f.isFile := by
  have hloop (exts : List String) (hexts : ∀ ext ∈ exts, ext = ".js" ∨ ext = ".ts") (w : World)
      (ht : w.tree.Sound) : ∃ r t', execute (forM exts (s.addScriptOf (s.sourceAt p))) w =
        (r, { w with tree := t' }) ∧ AddsMany s w.tree t' ∧ ∀ f, r = .error f → f.isFile := by
    induction exts generalizing w with
    | nil => exact ⟨_, w.tree, rfl, .refl, by simp⟩
    | cons ext exts ih =>
      have hrest := ih fun e he => hexts e (by simp [he])
      obtain ⟨q, hq, hscript⟩ := execute_script hs hp hne (hexts ext (by simp)) w
      rw [List.forM_cons, addScriptOf, bind_assoc, execute_bind_ok hscript]
      simp only [bind_assoc, execute_bind (x := Work.tree), Work.execute_tree]
      by_cases hfile : w.tree.isFile (s.sourceAt q) = true
      · obtain ⟨r, t₁, hadd, hadds, herror⟩ := execute_addAlone hs ht hq
        simp only [hfile, ↓reduceIte, bind_assoc, pure_bind]
        cases r with
        | error f =>
          refine ⟨_, t₁, execute_bind_error hadd, .single ⟨q, hq, hadds⟩, ?_⟩
          rintro g ⟨⟩
          exact herror f rfl
        | ok o =>
          obtain ⟨r, t', hexec, hmany, herror'⟩ := hrest { w with tree := t₁ } (hadds.sound ht)
          exact ⟨r, t', by rw [execute_bind_ok hadd]; exact hexec,
            .head ⟨q, hq, hadds⟩ hmany, herror'⟩
      · simp only [hfile, Bool.false_eq_true, ↓reduceIte, pure_bind]
        exact hrest w ht
  rw [addScriptsOf_eq]
  exact hloop Descriptor.scriptSuffixes (by simp [Descriptor.scriptSuffixes]) w ht

/-- Adding a path with what follows from it. -/
theorem execute_add (hs : s.PureMirror) (ht : w.tree.Sound) (hp : ∀ n ∈ p, Path.ValidName n)
    (hne : p ≠ [] ∨ s.source? w.tree p = some .directory) (follow : Bool) :
    ∃ r t₁ t', execute (s.add (s.sourceAt p) follow) w = (r, { w with tree := t' }) ∧
      Adds s p w.tree t₁ ∧ AddsMany s t₁ t' ∧ ∀ f, r = .error f → f.isFile := by
  obtain ⟨r, t₁, hadd, hadds, herror⟩ := execute_addAlone hs ht hp
  rw [add, execute_bind, Work.execute_tree]
  simp only
  cases r with
  | error f => exact ⟨_, t₁, t₁, execute_bind_error hadd, hadds, .refl, by
      rintro g ⟨⟩; exact herror f rfl⟩
  | ok o =>
    rw [execute_bind_ok hadd]
    split
    · rename_i hfollow
      have hne' : p ≠ [] := by
        refine hne.resolve_right fun hdir => ?_
        rw [(isDirectory_iff ht (hs.source_normal hp)).mpr hdir] at hfollow
        simp at hfollow
      obtain ⟨r, t', hscripts, hmany, herror'⟩ :=
        execute_addScriptsOf hs (w := { w with tree := t₁ }) (hadds.sound ht) hp hne'
      rw [execute_bind, hscripts]
      cases r with
      | error f => exact ⟨_, t₁, t', rfl, hadds, hmany, by rintro g ⟨⟩; exact herror' f rfl⟩
      | ok => exact ⟨_, t₁, t', rfl, hadds, hmany, by simp⟩
    · exact ⟨_, t₁, t₁, rfl, hadds, .refl, by simp⟩

/-! ## Removals -/

/-- What removing a path does to a tree: nothing when the path is excluded, and else
nothing of it is left in the output. -/
structure Removes (s : Syncer) (p : List String) (t t' : FileTree) : Prop where
  elsewhere : ∀ m, ¬ s.outputRoot.names ++ p <+: m → t'.get? m = t.get? m
  ignored : ¬ s.Keeps p → t' = t
  gone : s.Keeps p → ∀ m, s.outputRoot.names ++ p <+: m → t'.get? m = none
  sound : t'.Sound

theorem Removes.erase (hs : s.PureMirror) (ht : t.Sound) (hkeep : s.Keeps p) :
    Removes s p t (t.erase (s.outputRoot.names ++ p)) := by
  have hget := get?_erase t (l := s.outputRoot.names ++ p) (by simp [hs.output_ne_nil])
  refine ⟨fun m hm => ?_, fun h => absurd hkeep h, fun _ m hm => ?_,
    ht.erase _⟩
  · rw [hget, if_neg hm]
  · rw [hget, if_pos hm]

/-- What follows a removal. -/
theorem execute_afterRemoval (hs : s.PureMirror) (ht : w.tree.Sound)
    (hp : ∀ n ∈ p, Path.ValidName n) (hne : p ≠ []) (notice : Notice) (o : Outcome) :
    ∃ r w', execute (do
        Work.notify notice
        if (s.sourceAt p).suffix == s.configuration.extension then s.addScriptsOf (s.sourceAt p)
        return o) w = (r, w') ∧ AddsMany s w.tree w'.tree ∧ ∀ f, r = .error f → f.isFile := by
  rw [execute_bind, Work.execute_notify]
  simp only
  split
  · obtain ⟨r, t', hscripts, hmany, herror⟩ := execute_addScriptsOf hs
      (w := { w with notices := w.notices ++ [notice] }) ht hp hne
    rw [execute_bind, hscripts]
    cases r with
    | error f => exact ⟨_, _, rfl, hmany, by rintro g ⟨⟩; exact herror f rfl⟩
    | ok => exact ⟨_, _, rfl, hmany, by simp⟩
  · exact ⟨_, _, rfl, .refl, by simp⟩

theorem execute_remove (hs : s.PureMirror) (ht : w.tree.Sound)
    (hp : ∀ n ∈ p, Path.ValidName n) (hne : p ≠ []) :
    ∃ r t₁ w', execute (s.remove (s.sourceAt p)) w = (r, w') ∧ Removes s p w.tree t₁ ∧
      AddsMany s t₁ w'.tree ∧ ∀ f, r = .error f → f.isFile := by
  have htarget := hs.target_normal hp
  by_cases hkeep : s.Keeps p
  · rw [execute_remove_target ht htarget hkeep (hs.outputPath hp _)]
    cases hg : w.tree.get? (s.targetAt p).names with
    | none =>
      refine ⟨_, w.tree, w, rfl, ⟨fun _ _ => rfl, fun h => absurd hkeep h, fun _ m hm => ?_, ht⟩,
        .refl, by simp⟩
      by_contra hsome
      have habove := ht.above (Option.isSome_iff_ne_none.mpr hsome) hm
      by_cases heq : s.outputRoot.names ++ p = m
      · exact hsome (heq ▸ hg)
      · have hg' : w.tree.get? (s.outputRoot.names ++ p) = none := hg
        rw [habove heq] at hg'
        cases hg'
    | some e =>
      have herase := Removes.erase hs ht hkeep
      obtain ⟨r, w', hexec, hmany, herror⟩ := execute_afterRemoval hs
        (w := { w with tree := w.tree.erase (s.outputRoot.names ++ p) }) herase.sound hp hne
        (.log .info logName ("Removed " ++ (s.targetAt p).toString))
        ⟨s.sourceAt p, .removed, some (s.targetAt p), none⟩
      exact ⟨r, _, w', hexec, herase, hmany, herror⟩
  · rw [remove, if_pos (by simpa [Keeps] using hkeep)]
    exact ⟨_, w.tree, w, rfl, ⟨fun _ _ => rfl, fun _ => rfl, fun h => absurd h hkeep, ht⟩,
      .refl, by simp⟩

end SceneSync.Syncer
