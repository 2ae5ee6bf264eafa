import Mathlib
import SceneSync.Proofs.Watch.Tasks

/-!
# Tracking

How the output stands to the source while tasks are pending. An entry of the source
is in the output unless its addition is still to come, and an entry of the output
is in the source unless its removal is. Every change of the source keeps that with
the tasks of its event added, and every task keeps it once it is done.
-/

namespace SceneSync.Watcher

open FileTree Syncer

/-- The removal of the path, or of something above it, is pending. -/
def Covered (tasks : List Task) (p : List String) : Prop := ∃ q, .remove q ∈ tasks ∧ q <+: p

/-- The addition of the path is pending, and no removal behind it undoes it. -/
def Due (tasks : List Task) (p : List String) : Prop :=
  ∃ before after, tasks = before ++ .add p :: after ∧ ¬ Covered after p

structure Tracks (s : Syncer) (tasks : List Task) (t : FileTree) : Prop where
  sound : t.Sound
  root : s.source? t [] = some .directory
  clear : t.Clear s.outputRoot.names
  fresh : ∀ p e, s.Keeps p → s.source? t p = some e →
    s.output? t p = some e ∧ ¬ Covered tasks p ∨ Due tasks p
  stale : ∀ p e, p ≠ [] → s.output? t p = some e →
    s.Keeps p ∧ ((∃ e', s.source? t p = some e' ∧ SameKind e e') ∨ Covered tasks p)

variable {s : Syncer} {t t' : FileTree} {tasks rest : List Task} {p q : List String} {e : Entry}

/-! ## Pending tasks -/

theorem covered_append : Covered (tasks ++ rest) p ↔ Covered tasks p ∨ Covered rest p := by
  simp only [Covered, List.mem_append]
  constructor
  · rintro ⟨q, hq | hq, hp⟩
    · exact .inl ⟨q, hq, hp⟩
    · exact .inr ⟨q, hq, hp⟩
  · rintro (⟨q, hq, hp⟩ | ⟨q, hq, hp⟩)
    · exact ⟨q, .inl hq, hp⟩
    · exact ⟨q, .inr hq, hp⟩

@[simp] theorem not_covered_nil : ¬ Covered [] p := by simp [Covered]

@[simp] theorem covered_add_cons : Covered (.add q :: tasks) p ↔ Covered tasks p := by
  simp [Covered]

@[simp] theorem covered_remove_cons :
    Covered (.remove q :: tasks) p ↔ q <+: p ∨ Covered tasks p := by
  simp [Covered]

theorem Covered.above (h : Covered tasks q) (hp : q <+: p) : Covered tasks p := by
  obtain ⟨k, hk, hkq⟩ := h
  exact ⟨k, hk, hkq.trans hp⟩

/-- Tasks that do not cover a path leave its addition due. -/
theorem Due.append (h : Due tasks p) (hrest : ¬ Covered rest p) : Due (tasks ++ rest) p := by
  obtain ⟨before, after, rfl, hafter⟩ := h
  exact ⟨before, after ++ rest, by simp, by simp [covered_append, hafter, hrest]⟩

theorem due_last : Due (tasks ++ [.add p]) p := ⟨tasks, [], rfl, not_covered_nil⟩

theorem Due.of_cons {k : Task} (h : Due (k :: tasks) p) :
    Due tasks p ∨ k = .add p ∧ ¬ Covered tasks p := by
  obtain ⟨before, after, heq, hafter⟩ := h
  cases before with
  | nil =>
    obtain ⟨rfl, rfl⟩ := List.cons.inj heq
    exact .inr ⟨rfl, hafter⟩
  | cons j before =>
    obtain ⟨-, rfl⟩ := List.cons.inj heq
    exact .inl ⟨before, after, rfl, hafter⟩

/-! ## Additions -/

/-- One more addition does no harm. -/
theorem Tracks.adds (hs : s.PureMirror) (h : Tracks s tasks t) (ha : Adds s p t t') :
    Tracks s tasks t' := by
  have hsource := ha.source?_eq hs
  have houtput := ha.output?_cases hs h.sound
  refine ⟨ha.sound h.sound, by rw [hsource]; exact h.root, ha.clear h.root h.clear, ?_, ?_⟩
  · intro q e hkeep he
    rw [hsource] at he
    rcases h.fresh q e hkeep he with ⟨hout, hcovered⟩ | hdue
    · refine .inl ⟨?_, hcovered⟩
      rcases houtput q with hsame | ⟨-, e', he', hnew, -⟩
      · rw [hsame, hout]
      · rw [hnew, ← he', he]
    · exact .inr hdue
  · intro q e hne he
    rw [hsource]
    rcases houtput q with hsame | ⟨hkeep, e', he', hnew, -⟩
    · exact h.stale q e hne (hsame ▸ he)
    · obtain rfl : e' = e := Option.some.inj (hnew.symm.trans he)
      exact ⟨hkeep, .inl ⟨e', he', h.sound.sameKind_self he'⟩⟩

theorem Tracks.addsMany (hs : s.PureMirror) (h : Tracks s tasks t) (ha : AddsMany s t t') :
    Tracks s tasks t' := by
  induction ha with
  | refl => exact h
  | tail _ hstep ih =>
    obtain ⟨p, -, hadds⟩ := hstep
    exact ih.adds hs hadds

/-- Nothing stands in the way of an entry of the source whose removal is not pending. -/
theorem Tracks.ready (h : Tracks s tasks t) (he : s.source? t p = some e)
    (hcovered : ¬ Covered tasks p) : t.Ready (s.outputRoot.names ++ p) e := by
  have hkind {q : List String} {eq e' : Entry} (hqp : q <+: p) (hne : q ≠ [])
      (hq : s.source? t q = some eq) (he' : s.output? t q = some e') : SameKind e' eq := by
    obtain ⟨-, ⟨e'', he'', hkind⟩ | hcov⟩ := h.stale q e' hne he'
    · rw [hq] at he''
      rwa [Option.some.inj he'']
    · exact absurd (hcov.above hqp) hcovered
  refine ⟨fun m hm hne => ?_, fun e' he' => ?_⟩
  · rcases prefix_append_cases hm with hm | ⟨q, rfl, hq⟩
    · exact h.clear m hm
    · by_cases hqnil : q = []
      · subst hqnil
        exact h.clear _ (by simp)
      · cases hg : t.get? (s.outputRoot.names ++ q) with
        | none => exact .inl rfl
        | some e' =>
          have hdir := source?_above h.sound he hq (by simpa using hne)
          have := hkind hq hqnil hdir hg
          cases e' with
          | directory => exact .inr rfl
          | file | link => exact this.elim
  · by_cases hp : p = []
    · subst hp
      obtain rfl : e = .directory := Option.some.inj (he.symm.trans h.root)
      rcases h.clear _ List.prefix_rfl with hnone | hdir
      · rw [List.append_nil, hnone] at he'
        cases he'
      · rw [List.append_nil, hdir] at he'
        rw [← Option.some.inj he']
        trivial
    · exact hkind List.prefix_rfl hp he he'

theorem Tracks.doneAdd (hs : s.PureMirror) (h : Tracks s (.add p :: rest) t)
    (ha : Adds s p t t') : Tracks s rest t' := by
  have h' := h.adds hs ha
  refine ⟨h'.sound, h'.root, h'.clear, ?_, ?_⟩
  · intro q e hkeep he
    rcases h'.fresh q e hkeep he with ⟨hout, hcovered⟩ | hdue
    · exact .inl ⟨hout, by simpa using hcovered⟩
    · rcases hdue.of_cons with hdue | ⟨heq, hcovered⟩
      · exact .inr hdue
      · -- The addition was due here, so nothing stood in its way.
        obtain rfl : p = q := by simpa using heq
        rw [ha.source?_eq hs] at he
        refine .inl ⟨?_, hcovered⟩
        have hready := h.ready he (by simpa using hcovered)
        cases ha with
        | ignored _ hgone =>
          rw [hgone hkeep] at he
          cases he
        | brought _ he' _ hdone =>
          obtain rfl := Option.some.inj (he'.symm.trans he)
          exact hdone hready
  · intro q e hne he
    obtain ⟨hkeep, hsource | hcovered⟩ := h'.stale q e hne he
    · exact ⟨hkeep, .inl hsource⟩
    · exact ⟨hkeep, .inr (by simpa using hcovered)⟩

/-! ## Removals -/

theorem Tracks.doneRemove (hs : s.PureMirror) (hp : p ≠ []) (h : Tracks s (.remove p :: rest) t)
    (hr : Removes s p t t') : Tracks s rest t' := by
  have hsource (q : List String) : s.source? t' q = s.source? t q :=
    hr.elsewhere _ (output_not_above hs.toSeparate p q)
  have houtput {q : List String} (hq : ¬ p <+: q) : s.output? t' q = s.output? t q :=
    hr.elsewhere _ fun h => hq ((List.prefix_append_right_inj _).mp h)
  refine ⟨hr.sound, by rw [hsource]; exact h.root, fun m hm => ?_, ?_, ?_⟩
  · have hlen := hm.length_le
    have hpos := List.length_pos_of_ne_nil hp
    rw [hr.elsewhere m fun h => by have := h.length_le; rw [List.length_append] at this; omega]
    exact h.clear m hm
  · intro q e hkeep he
    rw [hsource] at he
    rcases h.fresh q e hkeep he with ⟨hout, hcovered⟩ | hdue
    · rw [covered_remove_cons, not_or] at hcovered
      exact .inl ⟨by rw [houtput hcovered.1, hout], hcovered.2⟩
    · rcases hdue.of_cons with hdue | ⟨heq, -⟩
      · exact .inr hdue
      · cases heq
  · intro q e hne he
    by_cases hq : p <+: q
    · by_cases hkeep : s.Keeps p
      · have hgone := hr.gone hkeep _ ((List.prefix_append_right_inj s.outputRoot.names).mpr hq)
        rw [output?, hgone] at he
        cases he
      · rw [hr.ignored hkeep] at he
        exact absurd ((h.stale q e hne he).1.above hs.toSeparate hq) hkeep
    · rw [houtput hq] at he
      obtain ⟨hkeep, hin | hcovered⟩ := h.stale q e hne he
      · exact ⟨hkeep, .inl (by rwa [hsource])⟩
      · exact ⟨hkeep, .inr ((covered_remove_cons.mp hcovered).resolve_left hq)⟩

/-! ## Changes of the source -/

theorem source?_put (hs : s.PureMirror) (e : Entry) (q : List String) :
    s.source? (t.put (s.watchRoot.names ++ p) e) q = if q = p then some e else s.source? t q := by
  rw [source?, get?_put _ (by simp [hs.watch_ne_nil])]
  simp [source?]

theorem source?_erase (hs : s.PureMirror) (q : List String) :
    s.source? (t.erase (s.watchRoot.names ++ p)) q = if p <+: q then none else s.source? t q := by
  rw [source?, get?_erase _ (by simp [hs.watch_ne_nil])]
  simp only [List.prefix_append_right_inj]
  rfl

/-- Writing into the source asks for an addition. -/
theorem Tracks.put (hs : s.PureMirror) (h : Tracks s tasks t) (hp : p ≠ [])
    (hsound : (t.put (s.watchRoot.names ++ p) e).Sound)
    (hold : ∀ e', s.source? t p = some e' → SameKind e' e) :
    Tracks s (tasks ++ [.add p]) (t.put (s.watchRoot.names ++ p) e) := by
  have hsource := source?_put (t := t) (p := p) hs e
  have helse {m : Location} (hm : m ≠ s.watchRoot.names ++ p) :
      (t.put (s.watchRoot.names ++ p) e).get? m = t.get? m := by
    rw [get?_put _ (by simp [hs.watch_ne_nil]), if_neg hm]
  have houtput (q : List String) :
      s.output? (t.put (s.watchRoot.names ++ p) e) q = s.output? t q :=
    helse fun heq => output_not_above hs.toSeparate q p (heq ▸ List.prefix_rfl)
  have hcovered {q : List String} : Covered (tasks ++ [.add p]) q ↔ Covered tasks q := by
    simp [covered_append]
  refine ⟨hsound, ?_, fun m hm => ?_, fun q eq hkeep he => ?_, fun q eq hne he => ?_⟩
  · rw [hsource, if_neg (Ne.symm hp)]
    exact h.root
  · rw [helse fun heq => source_not_above hs.toSeparate [] p (by simpa using heq ▸ hm)]
    exact h.clear m hm
  · by_cases hqp : q = p
    · exact .inr (hqp ▸ due_last)
    · rw [hsource, if_neg hqp] at he
      rcases h.fresh q eq hkeep he with ⟨hout, hcov⟩ | hdue
      · exact .inl ⟨by rw [houtput, hout], by rwa [hcovered]⟩
      · exact .inr (hdue.append (by simp))
  · rw [houtput] at he
    obtain ⟨hkeep, ⟨e', he', hkind⟩ | hcov⟩ := h.stale q eq hne he
    · refine ⟨hkeep, .inl ?_⟩
      by_cases hqp : q = p
      · subst hqp
        exact ⟨e, by rw [hsource, if_pos rfl], hkind.trans (hold e' he')⟩
      · exact ⟨e', by rw [hsource, if_neg hqp, he'], hkind⟩
    · exact ⟨hkeep, .inr (hcovered.mpr hcov)⟩

/-- Deleting in the source asks for a removal. -/
theorem Tracks.erase (hs : s.PureMirror) (h : Tracks s tasks t) (hp : p ≠ []) :
    Tracks s (tasks ++ [.remove p]) (t.erase (s.watchRoot.names ++ p)) := by
  have hsource := source?_erase (t := t) (p := p) hs
  have helse {m : Location} (hm : ¬ s.watchRoot.names ++ p <+: m) :
      (t.erase (s.watchRoot.names ++ p)).get? m = t.get? m := by
    rw [get?_erase _ (by simp [hs.watch_ne_nil]), if_neg hm]
  have houtput (q : List String) :
      s.output? (t.erase (s.watchRoot.names ++ p)) q = s.output? t q :=
    helse (source_not_above hs.toSeparate q p)
  refine ⟨h.sound.erase _, ?_, fun m hm => ?_,
    fun q eq hkeep he => ?_, fun q eq hne he => ?_⟩
  · rw [hsource, if_neg (by simpa using hp)]
    exact h.root
  · rw [helse fun hwm => source_not_above hs.toSeparate [] p (by simpa using hwm.trans hm)]
    exact h.clear m hm
  · rw [hsource] at he
    split at he
    · cases he
    · rename_i hpq
      rcases h.fresh q eq hkeep he with ⟨hout, hcov⟩ | hdue
      · exact .inl ⟨by rw [houtput, hout], by simp [covered_append, hcov, hpq]⟩
      · exact .inr (hdue.append (by simp [hpq]))
  · rw [houtput] at he
    obtain ⟨hkeep, hin | hcov⟩ := h.stale q eq hne he
    · by_cases hpq : p <+: q
      · exact ⟨hkeep, .inr (by simp [covered_append, hpq])⟩
      · exact ⟨hkeep, .inl (by rwa [hsource, if_neg hpq])⟩
    · exact ⟨hkeep, .inr (covered_append.mpr (.inl hcov))⟩

end SceneSync.Watcher
