import Mathlib
import SceneSync.Proofs.Synchronisation.FullPass

/-!
# Adding again

A full pass that ends well has put at each target what is due there, and what is due
hangs on the watched directory alone. So another walk through it comes by the same
paths, meets the same failures and changes nothing.
-/

namespace SceneSync.Syncer

open FileTree

variable {s : Syncer} {t₀ t t' : FileTree} {w w' v : World} {p : List String}
  {depth : Nat} {o : Outcome}

/-! ## One path -/

/-- The outcome of another addition, of which nothing was left to be done. -/
structure Repeats (o o' : Outcome) : Prop where
  source : o'.source = o.source
  error : o'.error = o.error
  idle : o'.action = .skipped ∨ o'.action = .ignored

/-- Where the tree is `t`, the work repeats an outcome and leaves notices only. -/
def Again (t : FileTree) (o : Outcome) (x : Work Outcome) : Prop :=
  ∃ o' ns, Repeats o o' ∧ ∀ n, execute x ⟨t, n⟩ = (.ok o', ⟨t, n ++ ns⟩)

theorem Again.pure {o' : Outcome} (h : Repeats o o') : Again t o (Pure.pure o') :=
  ⟨o', [], h, by simp⟩

theorem Again.congr {x y : Work Outcome} (h : Again t o x)
    (heq : ∀ n, execute y ⟨t, n⟩ = execute x ⟨t, n⟩) : Again t o y := by
  obtain ⟨o', ns, hrepeats, hx⟩ := h
  exact ⟨o', ns, hrepeats, fun n => (heq n).trans (hx n)⟩

/-- A script that has been added is found at its target. -/
theorem addFile_again {source target : Path} {content : List UInt8}
    (hsame : SameDue s source w.tree t) (hread : w.tree.read source = .ok content) (ht : t.Sound) (htarget : target.Normal)
    (hheld : t.get? target.names = some (.file (s.dueBytes w.tree source content)))
    (hexec : execute (s.addFile source target) w = (.ok o, w')) :
    Again t o (s.addFile source target) := by
  rcases execute_addFile_alike hsame hread target with
    ⟨-, f, ns, hfail⟩ | ⟨outcome, ns, htells, hupdate⟩
  · rw [show w = ⟨w.tree, w.notices⟩ from rfl, (hfail _).1] at hexec
    cases hexec
  · rw [show w = ⟨w.tree, w.notices⟩ from rfl, (hupdate _).1, execute_bind_eq_ok] at hexec
    obtain ⟨written, w₁, -, hexec⟩ := hexec
    obtain ⟨rfl, -⟩ : outcome written = o ∧ w₁ = w' := by simpa using hexec
    refine ⟨outcome false, ns, ⟨(htells.source _).trans (htells.source _).symm,
      (htells.error _).symm, .inl htells.skipped⟩, fun n => ?_⟩
    rw [(hupdate n).2,
      execute_bind_ok (execute_update_same (w := ⟨t, n ++ ns⟩) ht htarget hheld), execute_pure]

/-- What is excluded or gone is passed over. -/
theorem Underway.execute_addAlone_passed (hs : s.Separate) (hu : Underway s t₀ w.tree)
    (hp : ∀ n ∈ p, Path.ValidName n) (h : s.Keeps p → s.source? t₀ p = none) :
    execute (s.addAlone (s.sourceAt p)) w =
      (.ok ⟨s.sourceAt p, .ignored, none, none⟩, w) := by
  have hignored :
      (s.excludes (s.sourceAt p).toString || !w.tree.isThere (s.sourceAt p)) = true := by
    by_cases hkeep : s.Keeps p
    · have hnone : w.tree.get? (s.sourceAt p).names = none := (hu.source p).trans (h hkeep)
      have hthere : ¬ w.tree.isThere (s.sourceAt p) = true := by
        rw [isThere_iff hu.sound (hs.source_normal hp), hnone]
        simp
      simp [hthere]
    · rw [Keeps, Bool.not_eq_false] at hkeep
      rw [hkeep, Bool.true_or]
  rw [addAlone, execute_bind, Work.execute_tree]
  simp only
  rw [if_pos hignored, execute_pure]

/-- A path whose target holds what is due there is added again, and nothing happens. -/
theorem Underway.addAlone_again (hs : s.Separate) (ht₀ : t₀.Sound) (hu : Underway s t₀ w.tree)
    (hv : Underway s t₀ t) (hp : ∀ n ∈ p, Path.ValidName n)
    (hsame : ∀ content, s.source? t₀ p = some (.file content) →
      SameDue s (s.sourceAt p) t₀ w.tree ∧ SameDue s (s.sourceAt p) t₀ t)
    (hfilled : Filled s t₀ t p)
    (hexec : execute (s.addAlone (s.sourceAt p)) w = (.ok o, w')) :
    Again t o (s.addAlone (s.sourceAt p)) := by
  have hv' (n : List Notice) : Underway s t₀ (⟨t, n⟩ : World).tree := hv
  by_cases hpassed : s.Keeps p → s.source? t₀ p = none
  · rw [hu.execute_addAlone_passed hs hp hpassed] at hexec
    obtain rfl := Except.ok.inj (Prod.mk.inj hexec).1
    exact (Again.pure ⟨rfl, rfl, .inr rfl⟩).congr fun n =>
      (hv' n).execute_addAlone_passed hs hp hpassed
  · rw [Classical.not_imp, ← ne_eq, Option.ne_none_iff_exists'] at hpassed
    obtain ⟨hkeep, e, he⟩ := hpassed
    have htarget := hs.target_normal hp
    rw [hu.execute_addAlone hs hp hkeep he] at hexec
    cases e with
    | link target => exact absurd he (ht₀.noLinks _ _)
    | directory =>
      have hthere : t.isDirectory (s.targetAt p) = true :=
        (isDirectory_iff hv.sound htarget).mpr (hfilled _ hkeep (due?_directory.mpr he))
      have hquiet : o.source = s.sourceAt p ∧ o.error = none := by
        rw [if_pos rfl] at hexec
        split at hexec
        · obtain rfl := Except.ok.inj (Prod.mk.inj hexec).1
          exact ⟨rfl, rfl⟩
        · obtain ⟨_, _, -, hexec⟩ := execute_bind_eq_ok.mp hexec
          obtain rfl := Except.ok.inj (Prod.mk.inj hexec).1
          exact ⟨rfl, rfl⟩
      have hskips : Repeats o ⟨s.sourceAt p, .skipped, some (s.targetAt p), none⟩ :=
        ⟨hquiet.1.symm, hquiet.2.symm, .inl rfl⟩
      refine (Again.pure hskips).congr fun n => ?_
      rw [(hv' n).execute_addAlone hs hp hkeep he, if_pos rfl, if_pos hthere]
    | file content =>
      obtain ⟨hsame₀, hsame'⟩ := hsame content he
      have hread₀ := (read_ok_iff ht₀ (hs.source_normal hp)).mpr he
      have hdue : s.due? t₀ p = some (.file (s.dueBytes w.tree (s.sourceAt p) content)) := by
        rw [due?, he, hsame₀.dueBytes]
      rw [if_neg (by simp)] at hexec
      refine (addFile_again (hsame₀.between hsame') (hsame₀.read.trans hread₀) hv.sound htarget
        (hfilled _ hkeep hdue) hexec).congr fun n => ?_
      rw [(hv' n).execute_addAlone hs hp hkeep he, if_neg (by simp)]

/-- In a report without failures to reach a target each path has been added. -/
theorem add_of_addOrWarn {source : Path} {follow : Bool} (hfine : Fine o)
    (hexec : execute (s.addOrWarn source follow) w = (.ok o, w')) :
    execute (s.add source follow) w = (.ok o, w') := by
  rw [addOrWarn, execute_tryCatch] at hexec
  split at hexec
  · rwa [‹execute (s.add source follow) w = _›]
  · split at hexec
    · cases hexec
    · simp only [warnFailed, execute_bind, Work.execute_notify, execute_pure] at hexec
      obtain rfl := Except.ok.inj (Prod.mk.inj hexec).1
      cases hfine rfl

theorem Again.addOrWarn {source : Path} {follow : Bool} (h : Again t o (s.add source follow)) :
    Again t o (s.addOrWarn source follow) := by
  refine h.congr fun n => ?_
  obtain ⟨o', ns, -, hadd⟩ := h
  rw [Syncer.addOrWarn, execute_tryCatch_ok (hadd n), hadd n]

theorem Underway.addOrWarn_again (hs : s.Separate) (ht₀ : t₀.Sound)
    (hroot : s.source? t₀ [] = some .directory) (hu : Underway s t₀ w.tree)
    (hv : Underway s t₀ t) (hp : ∀ n ∈ p, Path.ValidName n) {follow : Bool}
    (hfollow : s.source? t₀ p = some .directory ∨ follow = false)
    (hfilled : Filled s t₀ t p) (hfine : Fine o)
    (hexec : execute (s.addOrWarn (s.sourceAt p) follow) w = (.ok o, w')) :
    Again t o (s.addOrWarn (s.sourceAt p) follow) := by
  have hadd := add_of_addOrWarn hfine hexec
  rw [hu.execute_add hs hp hfollow] at hadd
  refine Again.addOrWarn (Again.congr (hu.addAlone_again hs ht₀ hv hp (fun content hfile => ?_)
    hfilled hadd) fun n => Underway.execute_add (w := ⟨t, n⟩) hs hv hp hfollow)
  have hne : p ≠ [] := by
    rintro rfl
    cases hroot.symm.trans hfile
  exact ⟨hu.sameDue hs ht₀ hp hne hfile, hv.sameDue hs ht₀ hp hne hfile⟩

/-! ## Level by level -/

/-- A level is walked under the same names as long as the watched directory is the same. -/
theorem Underway.names_eq (hs : s.Separate) (hu : Underway s t₀ t) (hv : Underway s t₀ t')
    (hp : ∀ n ∈ p, Path.ValidName n) (hdir : s.source? t₀ p = some .directory) :
    s.keptNames t' p = s.keptNames t p ∧ s.otherNames t' p = s.otherNames t p := by
  have hdir₁ := (hu.source p).trans hdir
  have hdir₂ := (hv.source p).trans hdir
  constructor
  · refine mergeSort_eq_of_mem (keptNames_nodup hv.distinct p) (keptNames_nodup hu.distinct p) ?_
    intro n
    change n ∈ s.keptNames t' p ↔ n ∈ s.keptNames t p
    rw [mem_keptNames hs hv.sound hp hdir₂, mem_keptNames hs hu.sound hp hdir₁, hv.source,
      hu.source]
  · refine mergeSort_eq_of_mem (otherNames_nodup hv.distinct p) (otherNames_nodup hu.distinct p) ?_
    intro n
    change n ∈ s.otherNames t' p ↔ n ∈ s.otherNames t p
    rw [mem_otherNames hs hv.sound hp hdir₂, mem_otherNames hs hu.sound hp hdir₁, hv.source,
      hu.source]

/-- Everything that is due stands at its target. -/
def AllFilled (s : Syncer) (t₀ t : FileTree) : Prop := ∀ p, Filled s t₀ t p

/-- The names of a level are added again. -/
theorem Underway.addNames_again (hs : s.Separate) (ht₀ : t₀.Sound)
    (hroot : s.source? t₀ [] = some .directory) (hu : Underway s t₀ w.tree)
    (hv : Underway s t₀ t) (hall : AllFilled s t₀ t) (hvt : v.tree = t) {names : List String}
    (hnames : ∀ n ∈ names, (s.source? t₀ (p ++ [n])).isSome) {follow : Bool}
    (hfollow : ∀ n ∈ names, s.source? t₀ (p ++ [n]) = some .directory ∨ follow = false)
    {os : List Outcome} (hfine : ∀ o ∈ os, Fine o) (hexec : execute
      (names.mapM fun n => s.addOrWarn (s.sourceAt (p ++ [n])) follow) w = (.ok os, w')) :
    Underway s t₀ w'.tree ∧ ∃ os' v', execute
      (names.mapM fun n => s.addOrWarn (s.sourceAt (p ++ [n])) follow) v = (.ok os', v') ∧
        v'.tree = t ∧ List.Forall₂ Repeats os os' := by
  refine mapM_alike (I := fun x : World => Underway s t₀ x.tree)
    (J := fun x : World => x.tree = t) ?_ hu hvt hexec
  rintro n hn o ho x x' ⟨v', notices⟩ hx rfl hone
  have hvalid := valid_snoc ht₀ (hnames n hn)
  refine ⟨(hx.addOrWarn_run hs ht₀ hroot hvalid (hfollow n hn) hone (hfine o ho)).1, ?_⟩
  obtain ⟨o', ns, hrepeats, hagain⟩ := hx.addOrWarn_again hs ht₀ hroot hv hvalid (hfollow n hn)
    (hall _) (hfine o ho) hone
  exact ⟨o', _, hagain notices, rfl, hrepeats⟩

/-- What lies below a directory is added again. Both walks are deep enough for what is
there. -/
theorem Underway.addBelow_again (hs : s.Separate) (ht₀ : t₀.Sound)
    (hroot : s.source? t₀ [] = some .directory) (hu : Underway s t₀ w.tree)
    (hv : Underway s t₀ t) (hall : AllFilled s t₀ t) (hvt : v.tree = t) {depth' : Nat}
    (hp : ∀ n ∈ p, Path.ValidName n) (hdir : s.source? t₀ p = some .directory)
    (hopen : p = [] ∨ s.Keeps p)
    (hdeep : ∀ q, (s.source? t₀ q).isSome → q.length < p.length + depth)
    (hdeep' : ∀ q, (s.source? t₀ q).isSome → q.length < p.length + depth') {os : List Outcome}
    (hfine : ∀ o ∈ os, Fine o)
    (hexec : execute (s.addBelow depth (s.sourceAt p)) w = (.ok os, w')) :
    ∃ os' v', execute (s.addBelow depth' (s.sourceAt p)) v = (.ok os', v') ∧
      v'.tree = t ∧ List.Forall₂ Repeats os os' := by
  induction depth generalizing p w v w' os depth' with
  | zero => simpa using hdeep p (by rw [hdir]; rfl)
  | succ depth ih =>
    obtain ⟨depth', rfl⟩ : ∃ d, depth' = d + 1 := by
      have := hdeep' p (by rw [hdir]; rfl)
      exact ⟨depth' - 1, by omega⟩
    have hinner {d : Nat} (hd : ∀ q, (s.source? t₀ q).isSome → q.length < p.length + (d + 1))
        (n : String) (q : List String) (hq : (s.source? t₀ q).isSome) :
        q.length < (p ++ [n]).length + d := by
      have := hd q hq
      rw [List.length_append, List.length_singleton]
      omega
    have hlevel := hu.levelNames hs hp hdir
    obtain ⟨hkept, hothers⟩ := hu.names_eq hs hv hp hdir
    rw [execute_addBelow_names, addLevel] at hexec
    obtain ⟨first, w₁, hfirst, hexec⟩ := execute_bind_eq_ok.mp hexec
    obtain ⟨second, w₂, hsecond, hexec⟩ := execute_bind_eq_ok.mp hexec
    obtain ⟨below, w₃, hbelow, hexec⟩ := execute_bind_eq_ok.mp hexec
    obtain ⟨rfl, rfl⟩ : first ++ second ++ below.flatten = os ∧ w₃ = w' := by
      simpa using hexec
    obtain ⟨hu₁, first', v₁, hfirst', hv₁, hagain₁⟩ := hu.addNames_again hs ht₀ hroot hv hall hvt
      (fun n hn => (hlevel.listed_kept hn).isSome hroot)
      (fun n hn => .inl ((hlevel.mem_kept n).mp hn).1) (fun o ho => hfine o (by simp [ho])) hfirst
    obtain ⟨hu₂, second', v₂, hsecond', hv₂, hagain₂⟩ := hu₁.addNames_again hs ht₀ hroot hv hall
      hv₁ (fun n hn => ((hlevel.mem_others n).mp hn).1) (fun _ _ => .inr rfl)
      (fun o ho => hfine o (by simp [ho])) hsecond
    obtain ⟨-, below', v₃, hbelow', hv₃, hagain₃⟩ := mapM_alike
      (I := fun x : World => Underway s t₀ x.tree) (J := fun x : World => x.tree = t)
      (Q := List.Forall₂ Repeats)
      (g := fun n => do
        if (← Work.tree).isLink (s.sourceAt (p ++ [n])) then return []
        s.addBelow depth' (s.sourceAt (p ++ [n])))
      (fun n hn os hos x x' y hx hy hone => by
        obtain ⟨hdirn, hkeepn⟩ := (hlevel.mem_kept n).mp hn
        have hvalid := valid_snoc ht₀ ((hlevel.listed_kept hn).isSome hroot)
        have hfine' : ∀ o ∈ os, Fine o := fun o ho =>
          hfine o (List.mem_append_right _ (List.mem_flatten_of_mem hos ho))
        rw [execute_descend (isLink_eq_false hx.sound _)] at hone
        rw [execute_descend (isLink_eq_false (hy ▸ hv.sound) _)]
        exact ⟨(hx.addBelow_run hs ht₀ hroot hvalid hdirn (.inr hkeepn) hfine' hone).1,
          ih hx hy hvalid hdirn (.inr hkeepn) (hinner hdeep n) (hinner hdeep' n) hfine' hone⟩)
      hu₂ hv₂ hbelow
    refine ⟨first' ++ second' ++ below'.flatten, v₃, ?_, hv₃, ?_⟩
    · rw [execute_addBelow_names, addLevel, hvt, hkept, hothers, execute_bind_ok hfirst',
        execute_bind_ok hsecond', execute_bind_ok hbelow', execute_pure]
    · exact List.rel_append (List.rel_append hagain₁ hagain₂) (List.rel_flatten hagain₃)

/-! ## The whole directory -/

theorem fullPass_again_of_directory (hs : s.Separate) (ht : w.tree.Sound)
    (hdistinct : w.tree.Distinct) (hroot : s.source? w.tree [] = some .directory) {report : Report}
    (hpass : execute s.fullPass w = (.ok report, w')) (hfine : ∀ o ∈ report.outcomes, Fine o) :
    ∃ report' w'', execute s.fullPass w' = (.ok report', w'') ∧ w''.tree = w'.tree ∧
      List.Forall₂ Repeats report.outcomes report'.outcomes := by
  obtain ⟨hv, hfilled, -, -⟩ := fullPass_run hs ht hdistinct hroot hpass hfine
  have hall : AllFilled s w.tree w'.tree := fun p e hkeep he =>
    hfilled p (hkeep.listed hs ht (Option.isSome_iff_ne_none.mpr fun hnone => by
      rw [due?_eq_none.mpr hnone] at he
      cases he)) e hkeep he
  have hwatch : s.watchRoot = s.sourceAt [] := (Path.extend_nil _).symm
  rw [fullPass, hwatch] at hpass
  obtain ⟨o, w₁, hadd, hpass⟩ := execute_bind_eq_ok.mp hpass
  rw [execute_bind, Work.execute_tree] at hpass
  obtain ⟨os, w₂, hbelow, hpass⟩ := execute_bind_eq_ok.mp hpass
  obtain ⟨rfl, rfl⟩ : ⟨o :: os⟩ = report ∧ w₂ = w' := by simpa using hpass
  have hstart := Underway.start (s := s) ht hdistinct
  have hfine₀ : Fine o := hfine o (by simp)
  have hu := (hstart.addOrWarn_run hs ht hroot (p := []) (by simp) (.inl hroot) hadd hfine₀).1
  obtain ⟨o', ns, hrepeats, hadd'⟩ := hstart.addOrWarn_again hs ht hroot hv (p := [])
    (by simp) (.inl hroot) (hall []) hfine₀ hadd
  have hdeep' (q : List String) (hq : (s.source? w.tree q).isSome) :
      q.length < ([] : List String).length + (w₂.tree.entries.length + 1) := by
    simpa using hv.length_lt hq
  obtain ⟨os', v₂, hbelow', hv₂, hagain⟩ := hu.addBelow_again hs ht hroot hv hall
    (v := ⟨w₂.tree, w₂.notices ++ ns⟩) rfl (p := []) (by simp) hroot (.inl rfl)
    (fun q hq => by simpa using hu.length_lt hq) hdeep' (fun o ho => hfine o (by simp [ho]))
    hbelow
  refine ⟨⟨o' :: os'⟩, v₂, ?_, hv₂, .cons hrepeats hagain⟩
  rw [fullPass, hwatch, execute_bind_ok (hadd' w₂.notices), execute_bind, Work.execute_tree]
  simp only
  rw [execute_bind_ok hbelow', execute_pure]

end SceneSync.Syncer
