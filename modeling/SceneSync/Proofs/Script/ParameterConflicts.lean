import Mathlib
import SceneSync.Proofs.Script.TypedConversion

/-!
# Parameters that bind the scene's name

A function takes the scene unless one of its parameters is the scene already. It cannot
take it when the name is bound deeper in one of its parameters: the first such parameter
of the script is the fault of the conversion, and without one every function takes the
scene in one place.
-/

namespace SceneSync.Script

open Script.Tree

/-- The names that a parameter or a pattern binds, production by production. -/
inductive Binding : Tree → Tree → Prop
  | name {t : Tree} : t.kind = .identifier ∨ t.kind = .shorthandName → Binding t t
  | typed {t c u : Tree} : isTypedParameter t.kind = true → t.child? .pattern = some c →
      Binding c u → Binding t u
  | default {t c u : Tree} : t.kind = .assignmentPattern ∨ t.kind = .objectAssignmentPattern →
      t.child? .left = some c → Binding c u → Binding t u
  | renamed {t c u : Tree} : t.kind = .pairPattern → t.child? .value = some c →
      Binding c u → Binding t u
  | member {t c u : Tree} :
      t.kind = .objectPattern ∨ t.kind = .arrayPattern ∨ t.kind = .restPattern →
      c ∈ t.children → Binding c u → Binding t u

/-- A parameter that is the scene's name, plain or with a type, a `?` or a default. -/
inductive Bare (s : Script) (context : String) (p : Tree) : Prop
  | plain : BareParameter s context p → Bare s context p
  | typed {t : Tree} : isTypedParameter p.kind = true → p.child? .pattern = some t →
      t.kind = .identifier → s.textString t = context → Bare s context p

/-- The name is among those that a parameter binds. -/
def BindsName (s : Script) (context : String) (p : Tree) : Prop :=
  ∃ u, Binding p u ∧ s.textString u = context

/-- The name is bound in a parameter list without a bare parameter of that name. -/
def Conflicts (s : Script) (context : String) (site : Site) : Prop :=
  ∃ list, site.parameters? = some list ∧ (∀ p ∈ list.children, ¬ Bare s context p) ∧
    ∃ p ∈ list.children, BindsName s context p

/-- The first parameter of a site that binds the name. -/
def FirstBinding (s : Script) (context : String) (site : Site) (p : Tree) : Prop :=
  ∃ list before after, site.parameters? = some list ∧ list.children = before ++ p :: after ∧
    BindsName s context p ∧ ∀ q ∈ before, ¬ BindsName s context q

/-- The first site that conflicts with the name, and the first parameter in it to bind it. -/
structure FirstConflict (s : Script) (context : String) (site : Site) (p : Tree) : Prop where
  first : ∃ earlier later, s.sites = earlier ++ site :: later ∧
    ∀ e ∈ earlier, ¬ Conflicts s context e
  conflicts : Conflicts s context site
  parameter : FirstBinding s context site p

/-- An edit that declares the scene in a parameter list, behind some of the parameters
and ahead of the others. -/
structure DeclaresBetween (s : Script) (o : ConversionOptions) (list : Tree)
    (before after : List Tree) (e : Edit) : Prop where
  split : list.children = before ++ after
  inserts : e.stop = e.start
  place : e.start = (before.getLast?.map Tree.stop).getD (list.start + 1)
  text : e.replacement = bytesOf ((if before = [] then "" else ", ") ++ s.sceneParameter o ++
    (if before = [] ∧ after ≠ [] then ", " else ""))
  apart : s.Regular → list.start < e.start ∧ e.start < list.stop ∧
    (∀ p ∈ before, (p.stop : Int) ≤ e.start) ∧ ∀ p ∈ after, e.start ≤ p.start

/-- How a function comes to take the scene: not at all when a parameter is bare, else by
one edit that makes the declaration the first parameter, or the second behind `this`. -/
structure TakesSceneOnce (s : Script) (o : ConversionOptions) (site : Site)
    (edits : List Edit) : Prop where
  bare : ∀ list ∈ site.parameters?, (∃ p ∈ list.children, Bare s o.context p) → edits = []
  free : ∀ list ∈ site.parameters?, (∀ p ∈ list.children, ¬ Bare s o.context p) →
    ∃ before after e, edits = [e] ∧ s.DeclaresBetween o list before after e ∧
      before = list.children.take (if list.children.head?.any isReceiver then 1 else 0)
  unlisted : site.parameters? = none → edits = []

variable {s : Script} {o : ConversionOptions} {site : Site} {context : String}

/-! ## What is bound -/

theorem boundInRole_eq (r : Role) (ts : List Tree) :
    boundInRole r ts = ((ts.find? fun c => c.role == r).map bindings).getD [] := by
  induction ts with
  | nil => rfl
  | cons t ts ih =>
    rw [boundInRole, List.find?_cons]
    cases t.role == r
    · exact ih
    · rfl

theorem boundInAll_eq (ts : List Tree) : boundInAll ts = ts.flatMap bindings := by
  induction ts with
  | nil => rfl
  | cons t ts ih => rw [boundInAll, List.flatMap_cons, ih]

/-- What a node binds is bound by itself, by the child in one role, or by all children. -/
theorem bindings_eq (t : Tree) : bindings t =
    if t.kind = .identifier ∨ t.kind = .shorthandName then [t]
    else if isTypedParameter t.kind then ((t.child? .pattern).map bindings).getD []
    else if t.kind = .assignmentPattern ∨ t.kind = .objectAssignmentPattern then
      ((t.child? .left).map bindings).getD []
    else if t.kind = .pairPattern then ((t.child? .value).map bindings).getD []
    else if t.kind = .objectPattern ∨ t.kind = .arrayPattern ∨ t.kind = .restPattern then
      t.children.flatMap bindings
    else [] := by
  obtain ⟨r, k, a, b, cs⟩ := t
  simp only [Tree.kind, Tree.child?, Tree.children, ← boundInRole_eq, ← boundInAll_eq]
  cases k <;> rfl

theorem mem_boundIn {r : Role} {t u : Tree} :
    u ∈ ((t.child? r).map bindings).getD [] ↔ ∃ c, t.child? r = some c ∧ u ∈ bindings c := by
  cases t.child? r <;> simp

theorem binding_of_mem {t u : Tree} (h : u ∈ bindings t) : Binding t u := by
  rw [bindings_eq] at h
  split at h
  · rw [List.mem_singleton.mp h]
    exact .name ‹_›
  · split at h
    · obtain ⟨c, hc, hu⟩ := mem_boundIn.mp h
      have := sizeOf_child_lt (child?_mem hc)
      exact .typed ‹_› hc (binding_of_mem hu)
    · split at h
      · obtain ⟨c, hc, hu⟩ := mem_boundIn.mp h
        have := sizeOf_child_lt (child?_mem hc)
        exact .default ‹_› hc (binding_of_mem hu)
      · split at h
        · obtain ⟨c, hc, hu⟩ := mem_boundIn.mp h
          have := sizeOf_child_lt (child?_mem hc)
          exact .renamed ‹_› hc (binding_of_mem hu)
        · split at h
          · obtain ⟨c, hc, hu⟩ := List.mem_flatMap.mp h
            have := sizeOf_child_lt hc
            exact .member ‹_› hc (binding_of_mem hu)
          · cases h
  termination_by sizeOf t

theorem mem_bindings {t u : Tree} : u ∈ bindings t ↔ Binding t u := by
  refine ⟨binding_of_mem, fun h => ?_⟩
  induction h with
  | name hk =>
    rw [bindings_eq, if_pos hk]
    exact List.mem_singleton_self _
  | @typed t c u hk hc _ ih =>
    have := mem_boundIn.mpr ⟨c, hc, ih⟩
    rw [bindings_eq]
    cases ht : t.kind <;> simp_all [isTypedParameter]
  | @default t c u hk hc _ ih =>
    have := mem_boundIn.mpr ⟨c, hc, ih⟩
    rw [bindings_eq]
    rcases hk with hk | hk <;> simp_all [isTypedParameter]
  | @renamed t c u hk hc _ ih =>
    have := mem_boundIn.mpr ⟨c, hc, ih⟩
    rw [bindings_eq]
    simp_all [isTypedParameter]
  | @member t c u hk hc _ ih =>
    have := List.mem_flatMap.mpr ⟨c, hc, ih⟩
    rw [bindings_eq]
    rcases hk with hk | hk | hk <;> simp_all [isTypedParameter]

theorem binds_iff {p : Tree} : s.binds context p = true ↔ BindsName s context p := by
  simp only [binds, List.any_eq_true, mem_bindings, beq_iff_eq, BindsName]

theorem isSceneParameter_iff_bare {p : Tree} :
    s.isSceneParameter context p = true ↔ Bare s context p := by
  cases ht : isTypedParameter p.kind with
  | false =>
    rw [isSceneParameter_iff ht]
    refine ⟨.plain, fun h => ?_⟩
    cases h with
    | plain h => exact h
    | typed hk => simp [ht] at hk
  | true =>
    rw [isSceneParameter, parameterTarget?, if_pos ht]
    constructor
    · intro h
      obtain ⟨t, hc, h⟩ := (Option.any_eq_true _ _).mp h
      rw [Bool.and_eq_true, beq_iff_eq, beq_iff_eq] at h
      exact .typed ht hc h.1 h.2
    · intro h
      cases h with
      | plain h =>
        -- A bare name or a default is no typed parameter.
        cases h with
        | name hk => simp [isTypedParameter, hk] at ht
        | default hk => simp [isTypedParameter, hk] at ht
      | typed _ hc hk htext => simp [hc, hk, htext]

/-! ## One site -/

theorem firstBinding_iff {p : Tree} : FirstBinding s context site p ↔
    ∃ list, site.parameters? = some list ∧ list.children.find? (s.binds context) = some p := by
  simp only [FirstBinding, List.find?_eq_some_iff_append, Bool.not_eq_true', ← Bool.not_eq_true,
    binds_iff]
  constructor
  · rintro ⟨list, before, after, hl, hsplit, hp, hbefore⟩
    exact ⟨list, hl, hp, before, after, hsplit, hbefore⟩
  · rintro ⟨list, hl, hp, before, after, hsplit, hbefore⟩
    exact ⟨list, before, after, hl, hsplit, hp, hbefore⟩

theorem FirstBinding.unique {p q : Tree} (hp : FirstBinding s context site p)
    (hq : FirstBinding s context site q) : p = q := by
  obtain ⟨list, hl, hfind⟩ := firstBinding_iff.mp hp
  obtain ⟨list', hl', hfind'⟩ := firstBinding_iff.mp hq
  obtain rfl := Option.some.inj (hl.symm.trans hl')
  exact Option.some.inj (hfind.symm.trans hfind')

theorem not_conflicts {list : Tree} (hl : site.parameters? = some list)
    (h : (∃ p ∈ list.children, Bare s context p) ∨
      ∀ p ∈ list.children, ¬ BindsName s context p) : ¬ Conflicts s context site := by
  rintro ⟨list', hl', hbare, p, hp, hbinds⟩
  obtain rfl := Option.some.inj (hl.symm.trans hl')
  cases h with
  | inl h =>
    obtain ⟨q, hq, hb⟩ := h
    exact hbare q hq hb
  | inr h => exact h p hp hbinds

theorem declares_ahead (hsite : site ∈ s.sites) {list : Tree}
    (hl : site.parameters? = some list) : s.DeclaresBetween o list [] list.children
      (insertion (list.start + 1)
        (s.sceneParameter o ++ if list.children = [] then "" else ", ")) := by
  refine ⟨rfl, rfl, rfl, by simp [insertion], fun hs => ?_⟩
  have hlist := hs.lists site hsite list hl
  have hclosed := hlist.closed
  refine ⟨?_, ?_, by simp, fun p hp => ?_⟩
  · simp only [insertion]
    omega
  · simp only [insertion]
    omega
  · have := (hlist.between.mem hp).1
    simp only [insertion]
    omega

theorem declares_behind (hsite : site ∈ s.sites) {list p : Tree} {ps : List Tree}
    (hl : site.parameters? = some list) (hps : list.children = p :: ps) :
    s.DeclaresBetween o list [p] ps (insertion p.stop (", " ++ s.sceneParameter o)) := by
  refine ⟨hps, rfl, rfl, by simp [insertion], fun hs => ?_⟩
  have hlist := hs.lists site hsite list hl
  have hclosed := hlist.closed
  have hordered := hlist.between
  rw [hps] at hordered
  obtain ⟨hstart, hnested, hrest⟩ := hordered
  have hle := hnested.start_le_stop
  have hstop := hrest.start_le_stop
  refine ⟨?_, ?_, by simp [insertion], fun q hq => ?_⟩
  · simp only [insertion]
    omega
  · simp only [insertion]
    omega
  · have := (hrest.mem hq).1
    simp only [insertion]
    omega

/-- What comes of the parameters of a site: a fault at the first that binds the name, or
one declaration of the scene unless it is there. -/
theorem sceneParameterEdits_cases (s : Script) (o : ConversionOptions) (site : Site) :
    (Conflicts s o.context site ∧ ∃ p, FirstBinding s o.context site p ∧
      s.sceneParameterEdits o site =
        .error (.alreadyBound o.context (s.position p.start).1 (s.position p.start).2)) ∨
    (¬ Conflicts s o.context site ∧ ∃ edits, s.sceneParameterEdits o site = .ok edits ∧
      (site ∈ s.sites → TakesSceneOnce s o site edits)) := by
  cases hl : site.parameters? with
  | none =>
    have hnone : ¬ Conflicts s o.context site := by
      rintro ⟨list, hl', -⟩
      simp [hl] at hl'
    exact .inr ⟨hnone, [], by simp [sceneParameterEdits, hl],
      fun _ => ⟨by simp [hl], by simp [hl], fun _ => rfl⟩⟩
  | some list =>
    simp only [sceneParameterEdits, hl]
    by_cases hany : list.children.any (s.isSceneParameter o.context) = true
    · obtain ⟨p, hp, hscene⟩ := List.any_eq_true.mp hany
      have hbare : ∃ p ∈ list.children, Bare s o.context p :=
        ⟨p, hp, isSceneParameter_iff_bare.mp hscene⟩
      rw [if_pos hany]
      refine .inr ⟨not_conflicts hl (.inl hbare), [], rfl, fun _ => ⟨?_, ?_, ?_⟩⟩
      · intro _ _ _
        rfl
      · intro list' hl' hno
        obtain rfl := Option.some.inj (hl.symm.trans hl')
        exact absurd hbare (by simpa using hno)
      · simp [hl]
    · have hbare : ∀ p ∈ list.children, ¬ Bare s o.context p := fun p hp hb =>
        hany (List.any_eq_true.mpr ⟨p, hp, isSceneParameter_iff_bare.mpr hb⟩)
      rw [if_neg hany]
      cases hfind : list.children.find? (s.binds o.context) with
      | some p =>
        have hmem := List.mem_of_find?_eq_some hfind
        have hbinds := binds_iff.mp (List.find?_some hfind)
        exact .inl ⟨⟨list, hl, hbare, p, hmem, hbinds⟩, p, firstBinding_iff.mpr ⟨list, hl, hfind⟩,
          rfl⟩
      | none =>
        have hfree : ∀ p ∈ list.children, ¬ BindsName s o.context p := fun p hp hb =>
          absurd (binds_iff.mpr hb) (List.find?_eq_none.mp hfind p hp)
        refine .inr ⟨not_conflicts hl (.inr hfree), ?_⟩
        -- What remains to be said of each place is where it is in the list.
        have hput (before after : List Tree) {e : Edit}
            (hbefore : before = list.children.take
              (if list.children.head?.any isReceiver then 1 else 0))
            (he : site ∈ s.sites → s.DeclaresBetween o list before after e) :
            site ∈ s.sites → TakesSceneOnce s o site [e] := by
          intro hsite
          refine ⟨fun list' hl' hb => ?_, fun list' hl' _ => ?_, by simp [hl]⟩
          · obtain rfl := Option.some.inj (hl.symm.trans hl')
            obtain ⟨p, hp, hb⟩ := hb
            exact absurd hb (hbare p hp)
          · obtain rfl := Option.some.inj (hl.symm.trans hl')
            exact ⟨before, after, e, rfl, he hsite, hbefore⟩
        cases hps : list.children with
        | nil =>
          refine ⟨_, rfl, hput [] [] (by simp [hps]) fun hsite => ?_⟩
          simpa [hps] using declares_ahead hsite hl
        | cons p ps =>
          simp only
          cases hreceiver : isReceiver p with
          | true =>
            exact ⟨_, rfl, hput [p] ps (by simp [hps, hreceiver]) fun hsite =>
              declares_behind hsite hl hps⟩
          | false =>
            refine ⟨_, rfl, hput [] (p :: ps) (by simp [hps, hreceiver]) fun hsite => ?_⟩
            simpa [hps] using declares_ahead hsite hl

/-! ## All sites -/

theorem siteEdits_error_iff {fault : ScriptFault} : s.siteEdits o site = .error fault ↔
    s.sceneParameterEdits o site = .error fault := by
  cases hp : s.sceneParameterEdits o site <;>
    simp [siteEdits, hp, bind, Except.bind, pure, Except.pure]

theorem allSiteEdits_error_iff {fault : ScriptFault} : s.allSiteEdits o = .error fault ↔
    s.sites.mapM (s.siteEdits o) = .error fault := by
  cases hm : s.sites.mapM (s.siteEdits o) <;>
    simp [allSiteEdits, hm, bind, Except.bind, pure, Except.pure]

theorem siteEdits_ok_iff : (∃ edits, s.siteEdits o site = .ok edits) ↔
    ¬ Conflicts s o.context site := by
  cases sceneParameterEdits_cases s o site with
  | inl h =>
    obtain ⟨hconflict, p, -, herror⟩ := h
    simp [siteEdits_error_iff.mpr herror, hconflict]
  | inr h =>
    obtain ⟨hnone, parameters, hok, -⟩ := h
    exact iff_of_true ⟨_, siteEdits_eq_ok.mpr ⟨parameters, hok, rfl⟩⟩ hnone

/-- The faults of the sites are the first conflict of the script. -/
theorem allSiteEdits_error {fault : ScriptFault} : s.allSiteEdits o = .error fault ↔
    ∃ site p, FirstConflict s o.context site p ∧
      fault = .alreadyBound o.context (s.position p.start).1 (s.position p.start).2 := by
  simp only [allSiteEdits_error_iff, mapM_error_iff, siteEdits_ok_iff, siteEdits_error_iff]
  constructor
  · rintro ⟨earlier, site, later, hsplit, hearlier, herror⟩
    cases sceneParameterEdits_cases s o site with
    | inl h =>
      obtain ⟨hconflict, p, hp, hfault⟩ := h
      exact ⟨site, p, ⟨⟨earlier, later, hsplit, hearlier⟩, hconflict, hp⟩,
        Except.error.inj (herror.symm.trans hfault)⟩
    | inr h =>
      obtain ⟨-, edits, hok, -⟩ := h
      rw [hok] at herror
      cases herror
  · rintro ⟨site, p, ⟨⟨earlier, later, hsplit, hearlier⟩, hconflict, hp⟩, rfl⟩
    refine ⟨earlier, site, later, hsplit, hearlier, ?_⟩
    cases sceneParameterEdits_cases s o site with
    | inl h =>
      obtain ⟨-, q, hq, herror⟩ := h
      rw [herror, hq.unique hp]
    | inr h => exact absurd hconflict h.1

/-- A conversion is refused for a parameter when the edits of the sites are. -/
theorem convert_alreadyBound_iff {members : List Field} {name : String} {line column : Nat} :
    s.convert o members = .error (.alreadyBound name line column) ↔
      s.allSiteEdits o = .error (.alreadyBound name line column) := by
  cases he : s.allSiteEdits o with
  | error fault => simp [convert, he, bind, Except.bind]
  | ok edits =>
    simp only [convert, he, bind, Except.bind, reduceCtorEq, iff_false]
    split <;> intro h <;> cases h

theorem exists_firstConflict : (∃ site p, FirstConflict s context site p) ↔
    ∃ site ∈ s.sites, Conflicts s context site := by
  constructor
  · rintro ⟨site, p, ⟨⟨earlier, later, hsplit, -⟩, hconflict, -⟩⟩
    exact ⟨site, by simp [hsplit], hconflict⟩
  · rintro ⟨site, hsite, hconflict⟩
    -- The edits of the sites either fail at a first conflict or show that there is none.
    cases he : s.allSiteEdits ⟨context, ""⟩ with
    | error fault =>
      obtain ⟨site, p, h, -⟩ := allSiteEdits_error.mp he
      exact ⟨site, p, h⟩
    | ok edits => exact absurd hconflict (siteEdits_ok_iff.mp (siteEdits_ok he hsite))

/-- Sites stand one behind the other. -/
theorem sites_sorted (hs : s.Regular) :
    s.sites.Pairwise fun a b => a.tree.stop ≤ b.tree.start := by
  refine List.pairwise_filterMap.mpr ?_
  refine hs.nested.children.pairwise.imp_of_mem fun {t u} ht hu htu a ha b hb => ?_
  obtain ⟨-, -, h1⟩ := (hs.nested.children.mem ht).2.1.contains (siteOf?_contains ha)
  obtain ⟨h2, -, -⟩ := (hs.nested.children.mem hu).2.1.contains (siteOf?_contains hb)
  omega

/-- A conversion is refused for a parameter exactly when some function binds the scene's
name without a bare parameter of that name, and the place it gives is that of the first
such parameter. Otherwise every function without a bare parameter takes the scene by one
declaration, and the others by none. -/
theorem parameter_conflicts_reported (s : Script) (o : ConversionOptions) :
    (∀ members name line column,
      s.convert o members = .error (.alreadyBound name line column) ↔
        ∃ site p, FirstConflict s o.context site p ∧ name = o.context ∧
          (line, column) = s.position p.start) ∧
    ((∃ site p, FirstConflict s o.context site p) ↔
      ∃ site ∈ s.sites, Conflicts s o.context site) ∧
    (s.Regular → s.sites.Pairwise fun a b => a.tree.stop ≤ b.tree.start) ∧
    ((¬ ∃ site ∈ s.sites, Conflicts s o.context site) →
      ∃ edits, s.allSiteEdits o = .ok edits.flatten ∧
        List.Forall₂ (fun site es => ∃ parameters, TakesSceneOnce s o site parameters ∧
          es = exportEdits site ++ parameters ++ sceneUseEdits o site) s.sites edits) := by
  refine ⟨fun members name line column => ?_, exists_firstConflict, sites_sorted, fun hnone => ?_⟩
  · rw [convert_alreadyBound_iff, allSiteEdits_error]
    simp only [ScriptFault.alreadyBound.injEq, Prod.ext_iff]
  · cases hm : s.sites.mapM (s.siteEdits o) with
    | error fault =>
      exact absurd (exists_firstConflict.mp ((allSiteEdits_error.mp
        (allSiteEdits_error_iff.mpr hm)).imp fun _ h => h.imp fun _ h => h.1)) hnone
    | ok edits =>
      refine ⟨edits, by simp [allSiteEdits, hm, bind, Except.bind, pure, Except.pure], ?_⟩
      have hall := (List.forall₂_and_left (p := (· ∈ s.sites)) _ _).mpr
        ⟨fun _ h => h, (mapM_ok_iff _ _ _).mp hm⟩
      refine hall.imp fun site es h => ?_
      obtain ⟨hsite, hes⟩ := h
      obtain ⟨parameters, hparameters, hsplit⟩ := siteEdits_eq_ok.mp hes
      refine ⟨parameters, ?_, hsplit⟩
      cases sceneParameterEdits_cases s o site with
      | inl h =>
        obtain ⟨-, p, -, herror⟩ := h
        rw [hparameters] at herror
        cases herror
      | inr h =>
        obtain ⟨-, parameters', hok, htakes⟩ := h
        obtain rfl := Except.ok.inj (hparameters.symm.trans hok)
        exact htakes hsite

/-- A function with the scene's name in a pattern. -/
def patternSource : String := "function f() {}\nfunction g(a, \x7b b: [scene] \x7d) {}\n"

set_option maxRecDepth 100000 in
theorem parameter_conflicts_reported_pattern : ∃ site p,
    FirstConflict (plainScript patternSource) "scene" site p ∧
      (plainScript patternSource).position p.start = (2, 15) := by
  have hreported := (parameter_conflicts_reported (plainScript patternSource) .usual).1
  have herror : (plainScript patternSource).allSiteEdits .usual =
      .error (.alreadyBound "scene" 2 15) := by decide +kernel
  obtain ⟨site, p, hfirst, -, hposition⟩ :=
    (hreported [] "scene" 2 15).mp (convert_alreadyBound_iff.mpr herror)
  exact ⟨site, p, hfirst, hposition.symm⟩

end SceneSync.Script
