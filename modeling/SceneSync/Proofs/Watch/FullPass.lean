import Mathlib
import SceneSync.Proofs.Watch.Tracking

/-!
# The full pass

Into an empty output the full pass of a pure mirror brings everything that is not
excluded. It walks the watched directory level by level, and what has been brought
stays as later additions are made.
-/

namespace SceneSync.Syncer

open FileTree Watcher

variable {s : Syncer} {t t' : FileTree} {tasks : List Task} {w : World} {p q : List String}

/-- What the source has at a path and does not exclude is in the output. -/
def Settled (s : Syncer) (t : FileTree) (p : List String) : Prop :=
  ∀ e, s.Keeps p → s.source? t p = some e → s.output? t p = some e

/-- The source is as it was, and what has been settled is so still. -/
structure Advances (s : Syncer) (t t' : FileTree) : Prop where
  source : ∀ q, s.source? t' q = s.source? t q
  settled : ∀ q, Settled s t q → Settled s t' q

theorem Advances.refl (s : Syncer) (t : FileTree) : Advances s t t :=
  ⟨fun _ => rfl, fun _ h => h⟩

theorem Advances.trans {t₁ t₂ t₃ : FileTree} (h : Advances s t₁ t₂) (h' : Advances s t₂ t₃) :
    Advances s t₁ t₃ :=
  ⟨fun q => (h'.source q).trans (h.source q), fun q hq => h'.settled q (h.settled q hq)⟩

theorem Adds.advances (hs : s.PureMirror) (ht : t.Sound) (h : Adds s p t t') :
    Advances s t t' := by
  refine ⟨h.source?_eq hs, fun q hq e hkeep he => ?_⟩
  rw [h.source?_eq hs] at he
  rcases h.output?_cases hs ht q with hsame | ⟨-, e', he', hnew, -⟩
  · rw [hsame, hq e hkeep he]
  · rw [hnew, ← he', he]

theorem AddsMany.advances (hs : s.PureMirror) (ht : t.Sound) (h : AddsMany s t t') :
    Advances s t t' := by
  induction h with
  | refl => exact .refl s t
  | tail hmany hstep ih =>
    obtain ⟨p, -, hadds⟩ := hstep
    exact ih.trans (hadds.advances hs (AddsMany.sound hmany ht))

/-- An addition settles its path as long as no removal is pending. -/
theorem Adds.settles (hs : s.PureMirror) (h : Adds s p t t') (ht : Tracks s tasks t)
    (hp : ¬ Covered tasks p) : Settled s t' p := by
  intro e hkeep he
  rw [h.source?_eq hs] at he
  have hready := ht.ready he hp
  cases h with
  | ignored _ hgone =>
    rw [hgone hkeep] at he
    cases he
  | brought _ he' _ hdone =>
    obtain rfl := Option.some.inj (he'.symm.trans he)
    exact hdone hready

/-- Adding a path in the full pass settles it. -/
theorem execute_addOrWarn (hs : s.PureMirror) (hp : ∀ n ∈ p, Path.ValidName n)
    (hne : p ≠ [] ∨ s.source? w.tree p = some .directory) (ht : Tracks s tasks w.tree)
    (hcovered : ¬ Covered tasks p) (follow : Bool) :
    ∃ o w', execute (s.addOrWarn (s.sourceAt p) follow) w = (.ok o, w') ∧
      Tracks s tasks w'.tree ∧ Advances s w.tree w'.tree ∧ Settled s w'.tree p := by
  obtain ⟨r, t₁, t', hadd, hadds, hmany, herror⟩ := execute_add hs ht.sound hp hne follow
  have htracks := (ht.adds hs hadds).addsMany hs hmany
  have hlater := hmany.advances hs (hadds.sound ht.sound)
  have hadvances := (hadds.advances hs ht.sound).trans hlater
  have hsettled := hlater.settled p (hadds.settles hs ht hcovered)
  cases r with
  | ok o =>
    exact ⟨o, _, by rw [addOrWarn, execute_tryCatch_ok hadd], htracks, hadvances, hsettled⟩
  | error f =>
    rw [addOrWarn, execute_tryCatch_error hadd, herror f rfl]
    exact ⟨_, _, rfl, htracks, hadvances, hsettled⟩

/-! ## Level by level -/

/-- The names of one level are added one by one. -/
theorem execute_addLevel (hs : s.PureMirror) (hcovered : ∀ q, ¬ Covered tasks q)
    {names : List String} (hnames : ∀ n ∈ names, ∀ k ∈ p ++ [n], Path.ValidName k) (follow : Bool)
    (ht : Tracks s tasks w.tree) :
    ∃ os w', execute (names.mapM fun n => s.addOrWarn (s.sourceAt (p ++ [n])) follow) w =
        (.ok os, w') ∧ Tracks s tasks w'.tree ∧ Advances s w.tree w'.tree ∧
      ∀ n ∈ names, Settled s w'.tree (p ++ [n]) :=
  execute_mapM (I := fun (w : World) => Tracks s tasks w.tree)
    (R := fun (w w' : World) => Advances s w.tree w'.tree)
    (D := fun n (w : World) => Settled s w.tree (p ++ [n]))
    (fun w => .refl s w.tree) (fun _ _ _ h h' => h.trans h')
    (fun _ _ _ hdone hlater => hlater.settled _ hdone)
    (fun n hn _ ht₁ => execute_addOrWarn hs (hnames n hn) (.inl (by simp)) ht₁ (hcovered _) follow)
    w ht

/-- A level is settled as deep as what is below its directories, and one name deeper. -/
theorem settled_level (hs : s.PureMirror) (ht : t.Sound) {depth : Nat}
    (hat : ∀ n, (s.source? t (p ++ [n])).isSome → s.Keeps (p ++ [n]) → Settled s t (p ++ [n]))
    (hbelow : ∀ n, s.source? t (p ++ [n]) = some .directory → s.Keeps (p ++ [n]) →
      ∀ q, q ≠ [] → q.length ≤ depth → Settled s t (p ++ [n] ++ q)) :
    ∀ q, q ≠ [] → q.length ≤ depth + 1 → Settled s t (p ++ q) := by
  intro q hne hlen e hkeep he
  obtain ⟨n, q, rfl⟩ := List.exists_cons_of_ne_nil hne
  have hkeepn : s.Keeps (p ++ [n]) := hkeep.above hs.toSeparate (by simp)
  by_cases hq : q = []
  · subst hq
    exact hat n (by rw [he]; rfl) hkeepn e hkeep he
  · have hdir := source?_above ht he (q := p ++ [n]) (by simp) (by simp [Ne.symm hq])
    have hsplit : p ++ n :: q = p ++ [n] ++ q := by simp
    rw [hsplit] at hkeep he ⊢
    rw [List.length_cons] at hlen
    exact hbelow n hdir hkeepn q hq (by omega) e hkeep he

/-- A directory is brought as deep as the walk goes. -/
theorem execute_addBelow (hs : s.PureMirror) (hcovered : ∀ q, ¬ Covered tasks q) (depth : Nat)
    (hp : ∀ n ∈ p, Path.ValidName n) (hdir : s.source? w.tree p = some .directory)
    (ht : Tracks s tasks w.tree) :
    ∃ os w', execute (s.addBelow depth (s.sourceAt p)) w = (.ok os, w') ∧
      Tracks s tasks w'.tree ∧ Advances s w.tree w'.tree ∧
      ∀ q, q ≠ [] → q.length ≤ depth → Settled s w'.tree (p ++ q) := by
  induction depth generalizing p w with
  | zero =>
    refine ⟨[], w, rfl, ht, .refl s _, fun q hne hlen => absurd ?_ hne⟩
    exact List.eq_nil_of_length_eq_zero (by omega)
  | succ depth ih =>
    obtain ⟨kept, others, hkept, hothers, -, hexec⟩ :=
      execute_addBelow_succ hs.toSeparate ht.sound hp hdir depth
    have hkeptValid (n : String) (hn : n ∈ kept) : ∀ k ∈ p ++ [n], Path.ValidName k :=
      valid_snoc ht.sound (by rw [((hkept n).mp hn).1]; rfl)
    obtain ⟨first, w₁, hfirst, ht₁, hadv₁, hdone₁⟩ :=
      execute_addLevel hs hcovered hkeptValid true ht
    obtain ⟨second, w₂, hsecond, ht₂, hadv₂, hdone₂⟩ := execute_addLevel hs hcovered
      (fun n hn => valid_snoc ht.sound ((hothers n).mp hn).1) false ht₁
    have hbelow : ∃ os w', execute (kept.mapM fun n => do
          if (← Work.tree).isLink (s.sourceAt (p ++ [n])) then return []
          s.addBelow depth (s.sourceAt (p ++ [n]))) w₂ = (.ok os, w') ∧
        (Tracks s tasks w'.tree ∧ Advances s w.tree w'.tree) ∧ Advances s w₂.tree w'.tree ∧
        ∀ n ∈ kept, ∀ q, q ≠ [] → q.length ≤ depth → Settled s w'.tree (p ++ [n] ++ q) := by
      refine execute_mapM (I := fun (w' : World) => Tracks s tasks w'.tree ∧ Advances s w.tree w'.tree)
        (R := fun (w w' : World) => Advances s w.tree w'.tree)
        (D := fun n (w : World) => ∀ q, q ≠ [] → q.length ≤ depth → Settled s w.tree (p ++ [n] ++ q))
        (fun w => .refl s w.tree) (fun _ _ _ h h' => h.trans h')
        (fun _ _ _ hdone hlater q hne hlen => hlater.settled _ (hdone q hne hlen)) ?_ w₂
        ⟨ht₂, hadv₁.trans hadv₂⟩
      rintro n hn w₃ ⟨ht₃, hadv₃⟩
      obtain ⟨os, w', hbelow, ht', hadv', hsettled⟩ := ih (hkeptValid n hn)
        (by rw [hadv₃.source, ((hkept n).mp hn).1]) ht₃
      exact ⟨os, w', (execute_descend (isLink_eq_false ht₃.sound _) depth).trans hbelow,
        ⟨ht', hadv₃.trans hadv'⟩, hadv', hsettled⟩
    obtain ⟨below, w', hthird, ⟨ht', hadv⟩, hadv₃, hdone₃⟩ := hbelow
    refine ⟨first ++ second ++ below.flatten, w', ?_, ht', hadv,
      settled_level hs ht'.sound (fun n hn hkeepn => ?_) fun n hdirn hkeepn => ?_⟩
    · rw [hexec, addLevel, execute_bind_ok hfirst, execute_bind_ok hsecond,
        execute_bind_ok hthird, execute_pure]
    · rw [hadv.source] at hn
      by_cases hdirn : s.source? w.tree (p ++ [n]) = some .directory
      · exact hadv₃.settled _ (hadv₂.settled _ (hdone₁ n ((hkept n).mpr ⟨hdirn, hkeepn⟩)))
      · exact hadv₃.settled _ (hdone₂ n ((hothers n).mpr ⟨hn, hdirn⟩))
    · rw [hadv.source] at hdirn
      exact hdone₃ n ((hkept n).mpr ⟨hdirn, hkeepn⟩)

/-! ## The whole directory -/

/-- Before the pass the addition of everything is due. -/
theorem tracks_of_empty (ht : t.Sound) (hs : s.PureMirror)
    (hroot : s.source? t [] = some .directory) (he : OutputEmpty s t) :
    Tracks s (t.entries.map fun x => .add (x.1.drop s.watchRoot.names.length)) t := by
  refine ⟨ht, hroot, he.clear, fun p e _ hsource => .inr ?_, fun p e hne hout => ?_⟩
  · have hne : s.watchRoot.names ++ p ≠ [] := by simp [hs.watch_ne_nil]
    rw [source?, get?_of_ne_nil _ hne, List.lookup_eq_some_iff] at hsource
    obtain ⟨before, after, hentries, -⟩ := hsource
    refine ⟨before.map _, after.map _, by rw [hentries, List.map_append, List.map_cons,
      List.drop_left], ?_⟩
    simp [Covered]
  · rw [he.nothing p hne] at hout
    cases hout

/-- After the pass the output holds what the source does, and nothing is pending. -/
theorem execute_fullPass (hs : s.PureMirror) (ht : w.tree.Sound)
    (hroot : s.source? w.tree [] = some .directory) (he : OutputEmpty s w.tree) :
    ∃ report w', execute s.fullPass w = (.ok report, w') ∧ Tracks s [] w'.tree := by
  have htracks := tracks_of_empty ht hs hroot he
  have hcovered (q : List String) : ¬ Covered (w.tree.entries.map fun x =>
      .add (x.1.drop s.watchRoot.names.length)) q := by simp [Covered]
  obtain ⟨o, w₁, hadd, ht₁, hadv₁, hsettled⟩ := execute_addOrWarn hs (p := []) (by simp)
    (.inr hroot) htracks (hcovered _) true
  obtain ⟨os, w', hbelow, ht', hadv, hdone⟩ := execute_addBelow hs hcovered
    (w₁.tree.entries.length + 1) (p := []) (by simp) (by rw [hadv₁.source, hroot]) ht₁
  have hwatch : s.sourceAt [] = s.watchRoot := Path.extend_nil _
  rw [hwatch] at hadd hbelow
  have hall (q : List String) : Settled s w'.tree q := by
    by_cases hq : q = []
    · subst hq
      exact hadv.settled _ hsettled
    · by_cases hlen : q.length ≤ w₁.tree.entries.length + 1
      · exact hdone q hq hlen
      · intro e _ hsource
        rw [hadv.source] at hsource
        have hdepth := ht₁.sound.length_le (l := s.watchRoot.names ++ q)
          (by rw [show w₁.tree.get? _ = some e from hsource]; rfl)
        rw [List.length_append] at hdepth
        omega
  refine ⟨⟨o :: os⟩, w', ?_, ht'.sound, ht'.root, ht'.clear,
    fun p e hkeep hsource => .inl ⟨hall p e hkeep hsource, by simp⟩, fun p e hne hout => ?_⟩
  · rw [fullPass, execute_bind_ok hadd, execute_bind, Work.execute_tree]
    simp only
    rw [execute_bind_ok hbelow, execute_pure]
  · obtain ⟨hkeep, hsource | hcov⟩ := ht'.stale p e hne hout
    · exact ⟨hkeep, .inl hsource⟩
    · exact absurd hcov (hcovered p)

end SceneSync.Syncer
