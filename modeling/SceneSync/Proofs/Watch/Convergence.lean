import Mathlib
import SceneSync.Proofs.Watch.FullPass

/-!
# Convergence

While the source changes, the events of its changes wait in a queue and are handled
late. Whenever the queue has run empty, the output is the source without what is
excluded.
-/

namespace SceneSync.Watcher

open FileTree Syncer

/-- The files while a directory is watched, and the events that wait, oldest first. -/
structure Session where
  world : World
  queue : List Event

/-- A file gets another path, in place of a file that is there. -/
def rename (p q : Path) : Change Unit := do
  match (← get).read p with
  | .ok bytes =>
    FileTree.remove p
    FileTree.write q bytes
  | .error e => throw e

/-- The changes below the watched directory, with the event that each of them sends. -/
inductive SourceChange (s : Syncer) : Change Unit → Event → Prop
  | made {p : List String} : Below p →
      SourceChange s (makeDirectory (s.sourceAt p)) (.created (s.sourceAt p).toString)
  | written {p : List String} (bytes : List UInt8) : Below p →
      SourceChange s (write (s.sourceAt p) bytes) (.created (s.sourceAt p).toString)
  | rewritten {p : List String} (bytes : List UInt8) : Below p →
      SourceChange s (write (s.sourceAt p) bytes) (.modified (s.sourceAt p).toString false)
  | removed {p : List String} : Below p →
      SourceChange s (FileTree.remove (s.sourceAt p)) (.deleted (s.sourceAt p).toString)
  | removedAll {p : List String} : Below p →
      SourceChange s (removeAll (s.sourceAt p)) (.deleted (s.sourceAt p).toString)
  | renamed {p q : List String} : Below p → Below q →
      SourceChange s (rename (s.sourceAt p) (s.sourceAt q))
        (.moved (s.sourceAt p).toString (s.sourceAt q).toString)

/-- A change of the source that happens sends its event, and the handler takes the
oldest event, however it fares with it. -/
inductive Step (s : Syncer) : Session → Session → Prop
  | source {w : World} {queue : List Event} {c : Change Unit} {e : Event} {t : FileTree} :
      SourceChange s c e → execute c w.tree = (.ok (), t) →
      Step s ⟨w, queue⟩ ⟨{ w with tree := t }, queue ++ [e]⟩
  | handle {w w' : World} {e : Event} {queue : List Event} {r : Except Failure Unit} :
      execute (handle ⟨s, true⟩ e) w = (r, w') → Step s ⟨w, e :: queue⟩ ⟨w', queue⟩

variable {s : Syncer} {t t' : FileTree} {tasks : List Task} {p q : List String}

/-! ## One step -/

theorem Tracks.doneTask (hs : s.PureMirror) {k : Task} {ks : List Task}
    (h : Tracks s (k :: ks) t) (hbelow : ∀ p, k = .remove p → p ≠ []) (hd : Does s k t t') :
    Tracks s ks t' := by
  cases hd with
  | add hadds hmany => exact (h.doneAdd hs hadds).addsMany hs hmany
  | remove hremoves hmany => exact (h.doneRemove hs (hbelow _ rfl) hremoves).addsMany hs hmany

theorem Tracks.doneTasks (hs : s.PureMirror) {ks rest : List Task}
    (h : Tracks s (ks ++ rest) t) (hbelow : ∀ p, .remove p ∈ ks → p ≠ [])
    (hd : DoesAll s ks t t') : Tracks s rest t' := by
  induction hd with
  | nil => exact h
  | @cons k ks t t₁ t' hdoes _ ih =>
    refine ih (h.doneTask hs (fun p hp => hbelow p (by simp [hp])) hdoes) fun p hp => ?_
    exact hbelow p (List.mem_cons_of_mem k hp)

theorem Asks.remove_ne_nil {e : Event} {ks : List Task} (h : Asks s e ks) (p : List String)
    (hp : .remove p ∈ ks) : p ≠ [] := by
  cases h with
  | created | modified => simp at hp
  | deleted hbelow =>
    obtain rfl : p = _ := by simpa using hp
    exact hbelow.1
  | moved hbelow _ =>
    obtain rfl : p = _ := by simpa using hp
    exact hbelow.1

/-- What has been written in the source is to be added. -/
theorem Tracks.written (hs : s.PureMirror) (h : Tracks s tasks t) (hp : Below p) {e : Entry}
    (hl : t.Leads (s.sourceAt p).names) (hlink : ∀ target, e ≠ .link target)
    (hold : ∀ e', s.source? t p = some e' → SameKind e' e) :
    Tracks s (tasks ++ [.add p]) (t.put (s.sourceAt p).names e) := by
  refine h.put hs hp.1 ?_ hold
  obtain ⟨l, n, rfl⟩ := List.eq_nil_or_concat p |>.resolve_left hp.1
  rw [List.concat_eq_append] at *
  rw [sourceAt_names, ← List.append_assoc] at hl
  rw [← List.append_assoc]
  refine h.sound.put (leads_append.mp hl).2 (hp.2 n (by simp)) hlink ?_
  by_cases hdir : t.get? (s.watchRoot.names ++ l ++ [n]) = some .directory
  · have hkind := hold .directory (by rw [source?, ← List.append_assoc, hdir])
    cases e with
    | directory => exact .inr rfl
    | file | link => exact hkind.elim
  · exact .inl hdir

theorem Tracks.file (hs : s.PureMirror) (h : Tracks s tasks t) (hp : Below p)
    {bytes : List UInt8} (hw : execute (write (s.sourceAt p) bytes) t = (.ok (), t')) :
    Tracks s (tasks ++ [.add p]) t' := by
  obtain ⟨hl, hnot, rfl⟩ := write_ok h.sound (hs.source_normal hp.2) hw
  refine h.written hs hp hl (by simp) fun e' he' => ?_
  cases e' with
  | file => trivial
  | directory => exact absurd he' hnot
  | link target => exact absurd he' (h.sound.noLinks _ _)

/-- A change of the source is tracked once the tasks of its event are pending. -/
theorem SourceChange.tracks (hs : s.PureMirror) (h : Tracks s tasks t) {c : Change Unit}
    {e : Event} (hc : SourceChange s c e) (hexec : execute c t = (.ok (), t')) :
    ∃ ks, Asks s e ks ∧ Tracks s (tasks ++ ks) t' := by
  cases hc with
  | @made p hp =>
    obtain ⟨hl, hnone, rfl⟩ := makeDirectory_ok h.sound (hs.source_normal hp.2) hexec
    refine ⟨_, .created hp, h.written hs hp hl (by simp) fun e' he' => ?_⟩
    have hnone' : s.source? t p = none := hnone
    rw [hnone'] at he'
    cases he'
  | written bytes hp => exact ⟨_, .created hp, h.file hs hp hexec⟩
  | rewritten bytes hp => exact ⟨_, .modified hp, h.file hs hp hexec⟩
  | removed hp =>
    rw [remove_ok h.sound (hs.source_normal hp.2) hexec]
    exact ⟨_, .deleted hp, h.erase hs hp.1⟩
  | removedAll hp =>
    rw [removeAll_ok h.sound (hs.source_normal hp.2) hexec]
    exact ⟨_, .deleted hp, h.erase hs hp.1⟩
  | @renamed p q hp hq =>
    rw [rename, execute_bind, execute_get] at hexec
    cases hread : t.read (s.sourceAt p) with
    | error f => simp [hread] at hexec
    | ok bytes =>
      simp only [hread, execute_bind] at hexec
      cases hremove : execute (FileTree.remove (s.sourceAt p)) t with
      | mk r t₁ =>
        rw [hremove] at hexec
        cases r with
        | error f => simp at hexec
        | ok =>
          have h₁ : Tracks s (tasks ++ [.remove p]) t₁ := by
            rw [remove_ok h.sound (hs.source_normal hp.2) hremove]
            exact h.erase hs hp.1
          refine ⟨_, .moved hp hq, ?_⟩
          have h₂ := h₁.file hs hq hexec
          rwa [List.append_assoc] at h₂

/-! ## Runs -/

/-- The tasks that the waiting events ask for are those pending. -/
def Consistent (s : Syncer) (σ : Session) : Prop :=
  ∃ tasks, List.Forall₂ (Asks s) σ.queue tasks ∧ Tracks s tasks.flatten σ.world.tree

theorem Consistent.step (hs : s.PureMirror) {σ σ' : Session} (h : Consistent s σ)
    (hstep : Step s σ σ') : Consistent s σ' := by
  obtain ⟨tasks, hasks, htracks⟩ := h
  cases hstep with
  | source hc hexec =>
    obtain ⟨ks, hks, htracks'⟩ := hc.tracks hs htracks hexec
    refine ⟨tasks ++ [ks], ?_, by simpa using htracks'⟩
    exact List.rel_append hasks (.cons hks .nil)
  | @handle w w' e queue r hexec =>
    cases hasks with
    | @cons _ ks _ rest hks hrest =>
      obtain ⟨w₁, hhandle, hdoes⟩ := execute_handle hs htracks.sound true hks
      obtain rfl : w₁ = w' := (Prod.mk.inj (hhandle.symm.trans hexec)).2
      exact ⟨rest, hrest, htracks.doneTasks hs hks.remove_ne_nil hdoes⟩

theorem Consistent.run (hs : s.PureMirror) {σ σ' : Session} (h : Consistent s σ)
    (hrun : Relation.ReflTransGen (Step s) σ σ') : Consistent s σ' := by
  induction hrun with
  | refl => exact h
  | tail _ hstep ih => exact ih.step hs hstep

/-- With nothing pending the output is what it should be. -/
theorem Tracks.converged (h : Tracks s [] t) (p : List String) :
    (s.Keeps p → s.output? t p = s.source? t p) ∧
      (¬ s.Keeps p → p ≠ [] → s.output? t p = none) := by
  have hfresh (e : Entry) (hkeep : s.Keeps p) (he : s.source? t p = some e) :
      s.output? t p = some e := by
    rcases h.fresh p e hkeep he with ⟨hout, -⟩ | ⟨before, after, heq, -⟩
    · exact hout
    · simp at heq
  constructor
  · intro hkeep
    cases he : s.source? t p with
    | some e => exact hfresh e hkeep he
    | none =>
      by_cases hp : p = []
      · subst hp
        rw [h.root] at he
        cases he
      · by_contra hout
        obtain ⟨e, hout⟩ := Option.ne_none_iff_exists'.mp hout
        obtain ⟨-, ⟨e', he', -⟩ | hcov⟩ := h.stale p e hp hout
        · rw [he] at he'
          cases he'
        · exact not_covered_nil hcov
  · intro hkeep hp
    by_contra hout
    obtain ⟨e, hout⟩ := Option.ne_none_iff_exists'.mp hout
    exact hkeep (h.stale p e hp hout).1

/-- The two directories of a configuration, as the texts in it spell them. -/
theorem pureMirror_of {c : Configuration} {cwd : Path} (hcwd : cwd.Normal)
    {watchDir outputDir : String} (hw : c.watchDir = .ofString watchDir)
    (ho : c.outputDir = .ofString outputDir) (hc : c.conversionDir = none)
    (hin : ¬ (Syncer.of c cwd).outputRoot.names <+: (Syncer.of c cwd).watchRoot.names)
    (hout : ¬ (Syncer.of c cwd).watchRoot.names <+: (Syncer.of c cwd).outputRoot.names) :
    (Syncer.of c cwd).PureMirror where
  toSeparate := separate_of hcwd (hw ▸ Path.wellSpelled_ofString watchDir)
    (ho ▸ Path.wellSpelled_ofString outputDir) hin hout
  convertsNothing := hc

/-- A pure mirror that starts with a full pass into an empty output converges: whatever
happens to the source below the watched directory, and however late its events are
handled, with no event waiting the output is the source without what is excluded. -/
theorem watching_converges (c : Configuration) {watchDir outputDir : String}
    (hw : c.watchDir = .ofString watchDir) (ho : c.outputDir = .ofString outputDir)
    (hc : c.conversionDir = none) (w₀ : World) (ht : w₀.tree.Sound) {s : Syncer}
    (hs : s = Syncer.of c w₀.tree.current)
    (hin : ¬ s.outputRoot.names <+: s.watchRoot.names)
    (hout : ¬ s.watchRoot.names <+: s.outputRoot.names)
    (hroot : s.source? w₀.tree [] = some .directory) (hempty : s.OutputEmpty w₀.tree) :
    ∃ report w, execute s.fullPass w₀ = (.ok report, w) ∧
      ∀ σ, Relation.ReflTransGen (Step s) ⟨w, []⟩ σ → σ.queue = [] → ∀ p,
        (s.Keeps p → s.output? σ.world.tree p = s.source? σ.world.tree p) ∧
          (¬ s.Keeps p → p ≠ [] → s.output? σ.world.tree p = none) := by
  have hmirror : s.PureMirror := by
    subst hs
    exact pureMirror_of ht.current hw ho hc hin hout
  obtain ⟨report, w, hpass, htracks⟩ := execute_fullPass hmirror ht hroot hempty
  refine ⟨report, w, hpass, fun σ hrun hqueue => ?_⟩
  have hstart : Consistent s ⟨w, []⟩ := ⟨[], .nil, htracks⟩
  obtain ⟨tasks, hasks, htracks'⟩ := hstart.run hmirror hrun
  rw [hqueue] at hasks
  cases hasks
  exact htracks'.converged

def noteMirror : Configuration where
  watchDir := .ofString "/w"
  outputDir := .ofString "o"
  conversionDir := none
  exclude := [".tmp"]
  context := "scene"
  sceneType := "Phaser.Scene"
  extension := ".scene"
  maxDepth := 100

/-- A directory with a note in it. -/
def noteWorld : World where
  tree := ⟨.ofString "/", [(["w"], .directory), (["w", "note.txt"], .file [104, 105])]⟩
  notices := []

theorem watching_converges_note :
    noteWorld.tree.Sound ∧ ∃ s, s = Syncer.of noteMirror noteWorld.tree.current ∧
      s.Keeps ["note.txt"] ∧ ¬ s.Keeps ["note.tmp"] ∧
      ∃ report w, execute s.fullPass noteWorld = (.ok report, w) ∧
        ∀ σ, Relation.ReflTransGen (Step s) ⟨w, []⟩ σ → σ.queue = [] →
          s.output? σ.world.tree ["note.txt"] = s.source? σ.world.tree ["note.txt"] ∧
          s.output? σ.world.tree ["note.tmp"] = none := by
  have hsound : noteWorld.tree.Sound := by
    refine sound_of_entries (by decide) fun x hx => ?_
    simp only [noteWorld, List.mem_cons, List.not_mem_nil, or_false] at hx
    rcases hx with rfl | rfl
    · exact ⟨by simp, by decide, by decide⟩
    · exact ⟨by simp, by decide, by decide⟩
  have hkeeps : (Syncer.of noteMirror noteWorld.tree.current).Keeps ["note.txt"] := by
    unfold Keeps
    decide
  have hdrops : ¬ (Syncer.of noteMirror noteWorld.tree.current).Keeps ["note.tmp"] := by
    unfold Keeps
    decide
  have hempty : (Syncer.of noteMirror noteWorld.tree.current).OutputEmpty noteWorld.tree := by
    have houtput : (Syncer.of noteMirror noteWorld.tree.current).outputRoot.names = ["o"] := by
      decide
    refine ⟨fun m hm => ?_, fun p hp => ?_⟩
    · rw [houtput, List.prefix_cons_iff] at hm
      rcases hm with rfl | ⟨m, rfl, hm⟩
      · exact .inr rfl
      · rw [List.prefix_nil.mp hm]
        exact .inl rfl
    · rw [output?, houtput, get?_of_ne_nil _ (by simp)]
      simp [noteWorld, List.lookup_cons]
  obtain ⟨report, w, hpass, hrun⟩ := watching_converges noteMirror rfl rfl rfl noteWorld hsound
    rfl (by decide) (by decide) (by decide) hempty
  exact ⟨hsound, _, rfl, hkeeps, hdrops, report, w, hpass, fun σ hσ hqueue =>
    ⟨(hrun σ hσ hqueue _).1 hkeeps, (hrun σ hσ hqueue _).2 hdrops (by simp)⟩⟩

end SceneSync.Watcher
