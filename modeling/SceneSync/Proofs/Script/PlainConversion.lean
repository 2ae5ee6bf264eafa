import Mathlib
import SceneSync.Proofs.Pairing
import SceneSync.Proofs.Script.Regular
import SceneSync.Proofs.Splice

/-!
# The plain conversion

Converting a plain script makes three kinds of changes in each function site and
no other: it is exported, it takes the scene, and `this` gives way to the scene
where it is one. The changes keep apart, so the order in which they are made does
not show in the result.
-/

namespace SceneSync.Script

open Script.Tree

variable {s : Script} {o : ConversionOptions} {site : Site}

/-- A parameter that is the scene's name, with or without a default. -/
inductive BareParameter (s : Script) (context : String) (p : Tree) : Prop
  | name : p.kind = .identifier → s.textString p = context → BareParameter s context p
  | default {t : Tree} : p.kind = .assignmentPattern → p.child? .left = some t →
      t.kind = .identifier → s.textString t = context → BareParameter s context p

/-- A `this` in the tree that is the object of a member, or the first argument of a
construction, with no class body around it. -/
inductive SceneUse (root : Tree) (u : Tree) : Prop
  | object {t : Tree} : Reaches (· == .classBody) root t →
      t.kind = .memberExpression ∨ t.kind = .subscriptExpression →
      t.child? .object = some u → u.kind = .thisExpression → SceneUse root u
  | argument {t as : Tree} : Reaches (· == .classBody) root t → t.kind = .newExpression →
      t.child? .arguments = some as → as.children.head? = some u →
      u.kind = .thisExpression → SceneUse root u

/-- The changes in a site. -/
inductive SiteChange (s : Script) (context : String) (site : Site) : Edit → Prop
  | exported : site.exported = false →
      SiteChange s context site (insertion site.tree.start "export ")
  | parameter {list : Tree} : site.parameters? = some list →
      (∀ p ∈ list.children, ¬ BareParameter s context p) →
      SiteChange s context site
        (insertion (list.start + 1) (if list.children = [] then context else context ++ ", "))
  | use {t : Tree} : SceneUse site.tree t →
      SiteChange s context site ⟨t.start, t.stop, bytesOf context⟩

/-- The changes that a conversion makes in a plain script. -/
def PlainChange (s : Script) (context : String) (e : Edit) : Prop :=
  ∃ site ∈ s.sites, SiteChange s context site e

/-! ## The edits are the changes -/

theorem isSceneParameter_iff {context : String} {p : Tree} (h : isTypedParameter p.kind = false) :
    s.isSceneParameter context p = true ↔ BareParameter s context p := by
  have htarget : parameterTarget? p =
      if p.kind == .assignmentPattern then p.child? .left else some p := by
    rw [parameterTarget?, h, if_neg Bool.false_ne_true]
  rw [isSceneParameter, htarget]
  constructor
  · intro hp
    split at hp
    · rename_i hk
      cases ht : p.child? .left with
      | none => simp [ht] at hp
      | some t =>
        simp only [ht, Option.any_some, Bool.and_eq_true, beq_iff_eq] at hk hp
        exact .default hk ht hp.1 hp.2
    · simp only [Option.any_some, Bool.and_eq_true, beq_iff_eq] at hp
      exact .name hp.1 hp.2
  · rintro (⟨hk, ht⟩ | ⟨hk, ht, hk', htext⟩)
    · simp [hk, ht]
    · simp [hk, ht, hk', htext]

theorem sceneUse?_contains {t u : Tree} (h : sceneUse? t = some u) : Contains t u := by
  rw [sceneUse?] at h
  split at h
  · exact contains_child (child?_mem h)
  · exact contains_child (child?_mem h)
  · obtain ⟨as, has, hu⟩ := Option.bind_eq_some_iff.mp h
    exact (contains_child (child?_mem has)).trans (contains_child (List.mem_of_head? hu))
  · cases h

theorem sceneUse_iff {root u : Tree} : SceneUse root u ↔
    (∃ t, Reaches (· == .classBody) root t ∧ sceneUse? t = some u) ∧
      u.kind = .thisExpression := by
  constructor
  · rintro (⟨ht, hk | hk, hu, hthis⟩ | ⟨ht, hk, has, hu, hthis⟩)
    · exact ⟨⟨_, ht, by simp [sceneUse?, hk, hu]⟩, hthis⟩
    · exact ⟨⟨_, ht, by simp [sceneUse?, hk, hu]⟩, hthis⟩
    · exact ⟨⟨_, ht, by simp [sceneUse?, hk, has, hu]⟩, hthis⟩
  · rintro ⟨⟨t, ht, hu⟩, hthis⟩
    rw [sceneUse?] at hu
    split at hu
    · exact .object ht (.inl ‹_›) hu hthis
    · exact .object ht (.inr ‹_›) hu hthis
    · obtain ⟨as, has, hhead⟩ := Option.bind_eq_some_iff.mp hu
      exact .argument ht ‹_› has hhead hthis
    · cases hu

theorem mem_sceneUses {root u : Tree} : u ∈ sceneUses root ↔ SceneUse root u := by
  rw [sceneUses, List.mem_filter, List.mem_filterMap, sceneUse_iff]
  simp [mem_preorderOutside]

theorem SceneUse.contains {root u : Tree} (h : SceneUse root u) : Contains root u := by
  obtain ⟨⟨t, ht, hu⟩, -⟩ := sceneUse_iff.mp h
  exact ht.contains.trans (sceneUse?_contains hu)

theorem sceneParameterEdits_eq (hd : s.dialect = .plain) {list : Tree}
    (hl : site.parameters? = some list) (hs : s.RegularList list) {es : List Edit}
    (h : s.sceneParameterEdits o site = .ok es) :
    (∃ p ∈ list.children, BareParameter s o.context p) ∧ es = [] ∨
    (∀ p ∈ list.children, ¬ BareParameter s o.context p) ∧
      es = [insertion (list.start + 1)
        (if list.children = [] then o.context else o.context ++ ", ")] := by
  have hbare : ∀ p ∈ list.children,
      (s.isSceneParameter o.context p = true ↔ BareParameter s o.context p) :=
    fun p hp => isSceneParameter_iff (hs.plain hd p hp)
  simp only [sceneParameterEdits, hl] at h
  split at h
  · rename_i hany
    obtain ⟨p, hp, hscene⟩ := List.any_eq_true.mp hany
    exact .inl ⟨⟨p, hp, (hbare p hp).mp hscene⟩, (Except.ok.inj h).symm⟩
  · rename_i hany
    have hnone : ∀ p ∈ list.children, ¬ BareParameter s o.context p :=
      fun p hp hb => hany (List.any_eq_true.mpr ⟨p, hp, (hbare p hp).mpr hb⟩)
    have hdecl : s.sceneParameter o = o.context := by simp [sceneParameter, hd, Dialect.isTyped]
    refine .inr ⟨hnone, ?_⟩
    split at h
    · cases h
    · split at h
      · rename_i hnil
        rw [hnil, if_pos rfl, ← hdecl]
        exact (Except.ok.inj h).symm
      · rename_i p ps hcons
        have hreceiver : isReceiver p = false := by
          simp [isReceiver, hs.plain hd p (by simp [hcons])]
        rw [hreceiver, if_neg Bool.false_ne_true] at h
        rw [hcons, if_neg (List.cons_ne_nil p ps), ← hdecl]
        exact (Except.ok.inj h).symm

theorem mem_siteEdits (hd : s.dialect = .plain) (hs : s.Regular) (hsite : site ∈ s.sites)
    {es : List Edit} (h : s.siteEdits o site = .ok es) (e : Edit) :
    e ∈ es ↔ SiteChange s o.context site e := by
  cases hp : s.sceneParameterEdits o site with
  | error fault => simp [siteEdits, hp, bind, Except.bind] at h
  | ok parameters =>
    simp only [siteEdits, hp, bind, Except.bind, pure, Except.pure, Except.ok.injEq] at h
    have hexport : e ∈ exportEdits site ↔
        site.exported = false ∧ e = insertion site.tree.start "export " := by
      cases hx : site.exported <;> simp [exportEdits, hx]
    have huse : e ∈ sceneUseEdits o site ↔
        ∃ t, SceneUse site.tree t ∧ ⟨t.start, t.stop, bytesOf o.context⟩ = e := by
      simp [sceneUseEdits, mem_sceneUses]
    have hparameter : e ∈ parameters ↔ ∃ list, site.parameters? = some list ∧
        (∀ p ∈ list.children, ¬ BareParameter s o.context p) ∧
        e = insertion (list.start + 1)
          (if list.children = [] then o.context else o.context ++ ", ") := by
      cases hl : site.parameters? with
      | none =>
        obtain rfl : [] = parameters := by simpa [sceneParameterEdits, hl] using hp
        simp
      | some list =>
        rcases sceneParameterEdits_eq hd hl (hs.lists site hsite list hl) hp with
          ⟨⟨p, hmem, hbare⟩, rfl⟩ | ⟨hnone, rfl⟩
        · simp only [List.not_mem_nil, Option.some.injEq, false_iff, not_exists]
          rintro list' ⟨rfl, hno, -⟩
          exact hno p hmem hbare
        · constructor
          · intro he
            exact ⟨list, rfl, hnone, List.mem_singleton.mp he⟩
          · rintro ⟨list', hl', -, rfl⟩
            obtain rfl := Option.some.inj hl'
            simp
    rw [← h, List.mem_append, List.mem_append, hexport, hparameter, huse]
    constructor
    · rintro ((⟨hx, rfl⟩ | ⟨list, hl, hno, rfl⟩) | ⟨t, ht, rfl⟩)
      · exact .exported hx
      · exact .parameter hl hno
      · exact .use ht
    · rintro (hx | ⟨hl, hno⟩ | ht)
      · exact .inl (.inl ⟨hx, rfl⟩)
      · exact .inl (.inr ⟨_, hl, hno, rfl⟩)
      · exact .inr ⟨_, ht, rfl⟩

/-- The edits of a script are those of its sites. -/
theorem mem_allSiteEdits_iff {es : List Edit} (h : s.allSiteEdits o = .ok es) (e : Edit) :
    e ∈ es ↔ ∃ site ∈ s.sites, ∃ l, s.siteEdits o site = .ok l ∧ e ∈ l := by
  cases hm : s.sites.mapM (s.siteEdits o) with
  | error fault => simp [allSiteEdits, hm, bind, Except.bind] at h
  | ok lists =>
    simp only [allSiteEdits, hm, bind, Except.bind, pure, Except.pure, Except.ok.injEq] at h
    rw [← h, List.mem_flatten]
    have hall := (mapM_ok_iff _ _ _).mp hm
    constructor
    · rintro ⟨l, hl, he⟩
      obtain ⟨site, hsite, hedits⟩ := exists_left_of_mem hall hl
      exact ⟨site, hsite, l, hedits, he⟩
    · rintro ⟨site, hsite, l, hl, he⟩
      obtain ⟨l', hl', hedits⟩ := exists_right_of_mem hall hsite
      obtain rfl := Except.ok.inj (hl.symm.trans hedits)
      exact ⟨l, hl', he⟩

/-- When the edits of a script are found, so are those of each site. -/
theorem siteEdits_ok {es : List Edit} (h : s.allSiteEdits o = .ok es) (hsite : site ∈ s.sites) :
    ∃ l, s.siteEdits o site = .ok l := by
  cases hm : s.sites.mapM (s.siteEdits o) with
  | error fault => simp [allSiteEdits, hm, bind, Except.bind] at h
  | ok lists =>
    obtain ⟨l, -, hl⟩ := exists_right_of_mem ((mapM_ok_iff _ _ _).mp hm) hsite
    exact ⟨l, hl⟩

theorem mem_allSiteEdits (hd : s.dialect = .plain) (hs : s.Regular) {es : List Edit}
    (h : s.allSiteEdits o = .ok es) (e : Edit) : e ∈ es ↔ PlainChange s o.context e := by
  rw [mem_allSiteEdits_iff h]
  constructor
  · rintro ⟨site, hsite, l, hl, he⟩
    exact ⟨site, hsite, (mem_siteEdits hd hs hsite hl e).mp he⟩
  · rintro ⟨site, hsite, he⟩
    obtain ⟨l, hl⟩ := siteEdits_ok h hsite
    exact ⟨site, hsite, l, hl, (mem_siteEdits hd hs hsite hl e).mpr he⟩

/-! ## The changes keep apart -/

theorem leaf_contains {t u : Tree} (ht : t.children = []) (h : Contains t u) : t = u := by
  cases h with
  | here => rfl
  | down _ hc _ => simp [ht] at hc

theorem SceneUse.token (hs : s.Regular) (hsite : site ∈ s.sites) {t : Tree}
    (h : SceneUse site.tree t) : t.children = [] ∧ t.start < t.stop :=
  hs.tokens t (mem_preorder.mpr ((site_contains hsite).trans h.contains)) (sceneUse_iff.mp h).2

/-- A parameter list and a `this` of one site: the scene goes in before or behind it. -/
theorem list_apart_token (hs : s.Regular) (hsite : site ∈ s.sites) {list t : Tree}
    (hl : site.parameters? = some list) (ht : SceneUse site.tree t) :
    list.start + 1 ≤ t.start ∨ t.stop ≤ list.start + 1 := by
  have hnest := hs.site_nested hsite
  have hlist := hs.lists site hsite list hl
  obtain ⟨hleaf, htoken⟩ := ht.token hs hsite
  rcases hnest.contains_or_apart (contains_child (child?_mem hl)) ht.contains with
    hin | hin | hapart | hapart
  · cases hin with
    | here =>
      have hkind := (sceneUse_iff.mp ht).2
      rw [hlist.kind] at hkind
      cases hkind
    | down _ hc hct =>
      obtain ⟨h1, h2, -⟩ := hlist.between.mem hc
      obtain ⟨h3, -, -⟩ := h2.contains hct
      omega
  · rw [← leaf_contains hleaf hin] at hlist
    have hkind := (sceneUse_iff.mp ht).2
    rw [hlist.kind] at hkind
    cases hkind
  · have := hlist.closed
    omega
  · omega

theorem token_eq_or_apart (hs : s.Regular) (hsite : site ∈ s.sites) {t u : Tree}
    (ht : SceneUse site.tree t) (hu : SceneUse site.tree u) : t = u ∨ Tree.Apart t u := by
  rcases (hs.site_nested hsite).contains_or_apart ht.contains hu.contains with h | h | h
  · exact .inl (leaf_contains (ht.token hs hsite).1 h)
  · exact .inl (leaf_contains (hu.token hs hsite).1 h).symm
  · exact .inr h

/-- Where the scene can be put: behind the parenthesis of the parameter list, or behind
one of the parameters. -/
def ParameterPlace (site : Site) (place : Nat) : Prop :=
  ∃ list, site.parameters? = some list ∧
    (place = list.start + 1 ∨ ∃ p ∈ list.children, place = p.stop)

theorem ParameterPlace.within (hs : s.Regular) (hsite : site ∈ s.sites) {place : Nat}
    (h : ParameterPlace site place) : site.tree.start < place ∧ place < site.tree.stop := by
  obtain ⟨list, hl, hplace⟩ := h
  obtain ⟨h1, -, h2⟩ := (hs.site_nested hsite).contains (contains_child (child?_mem hl))
  have hlist := hs.lists site hsite list hl
  have hclosed := hlist.closed
  rcases hplace with rfl | ⟨p, hp, rfl⟩
  · omega
  · obtain ⟨h3, h4, h5⟩ := hlist.between.mem hp
    have := h4.start_le_stop
    omega

theorem ParameterPlace.apart_token (hs : s.Regular) (hsite : site ∈ s.sites) {place : Nat}
    (h : ParameterPlace site place) {t : Tree} (ht : SceneUse site.tree t) :
    place ≤ t.start ∨ t.stop ≤ place := by
  obtain ⟨list, hl, rfl | ⟨p, hp, rfl⟩⟩ := h
  · exact list_apart_token hs hsite hl ht
  · have hnest := hs.site_nested hsite
    have hpIn : Contains site.tree p :=
      (contains_child (child?_mem hl)).trans (contains_child hp)
    have hle := (hnest.contains hpIn).2.1.start_le_stop
    rcases hnest.contains_or_apart hpIn ht.contains with hin | hin | hapart | hapart
    · exact .inr ((hnest.contains hpIn).2.1.contains hin).2.2
    · rw [leaf_contains (ht.token hs hsite).1 hin]
      exact .inr (Nat.le_refl _)
    · exact .inl hapart
    · exact .inr (Nat.le_trans hapart hle)

/-- The edits in a site when the scene is put in at one place with one text. -/
inductive SiteEdit (context : String) (site : Site) (place : Nat) (text : String) : Edit → Prop
  | exported : SiteEdit context site place text (insertion site.tree.start "export ")
  | parameter : ParameterPlace site place →
      SiteEdit context site place text (insertion place text)
  | use {t : Tree} : SceneUse site.tree t →
      SiteEdit context site place text ⟨t.start, t.stop, bytesOf context⟩

/-- An edit lies in the span of its site and starts before the end of it. -/
theorem SiteEdit.within (hs : s.Regular) (hsite : site ∈ s.sites) {context text : String}
    {place : Nat} {e : Edit} (h : SiteEdit context site place text e) :
    (site.tree.start : Int) ≤ e.start ∧ e.start ≤ e.stop ∧ e.stop ≤ site.tree.stop ∧
      e.start < site.tree.stop := by
  cases h with
  | exported =>
    have := hs.functions site hsite
    simp only [insertion]
    omega
  | parameter hplace =>
    have := hplace.within hs hsite
    simp only [insertion]
    omega
  | use ht =>
    obtain ⟨h1, -, h2⟩ := (hs.site_nested hsite).contains ht.contains
    have := (ht.token hs hsite).2
    simp only
    omega

/-- Two edits in one site: an export before everything, the scene among the parameters,
and tokens elsewhere. -/
theorem SiteEdit.separate (hs : s.Regular) (hsite : site ∈ s.sites) {context text : String}
    {place : Nat} {e f : Edit} (he : SiteEdit context site place text e)
    (hf : SiteEdit context site place text f) (hne : e ≠ f) :
    Edit.Apart e f ∧ ¬ Edit.SamePlace e f := by
  have htoken {t : Tree} (ht : SceneUse site.tree t) :
      site.tree.start ≤ t.start ∧ t.start < t.stop :=
    ⟨((hs.site_nested hsite).contains ht.contains).1, (ht.token hs hsite).2⟩
  unfold Edit.Apart Edit.SamePlace
  cases he with
  | exported =>
    cases hf with
    | exported => exact absurd rfl hne
    | parameter hplace =>
      have := hplace.within hs hsite
      simp only [insertion]
      omega
    | use ht =>
      have := htoken ht
      simp only [insertion]
      omega
  | parameter hplace =>
    have := hplace.within hs hsite
    cases hf with
    | exported =>
      simp only [insertion]
      omega
    | parameter => exact absurd rfl hne
    | use ht =>
      have := htoken ht
      have := hplace.apart_token hs hsite ht
      simp only [insertion]
      omega
  | use ht =>
    have := htoken ht
    cases hf with
    | exported =>
      simp only [insertion]
      omega
    | parameter hplace =>
      have := hplace.apart_token hs hsite ht
      simp only [insertion]
      omega
    | use hu =>
      have := htoken hu
      rcases token_eq_or_apart hs hsite ht hu with rfl | hapart
      · exact absurd rfl hne
      · unfold Tree.Apart at hapart
        simp only
        omega

/-- The changes in a plain site are among its edits. -/
theorem siteEdit_of_change (s : Script) (context : String) (site : Site) :
    ∃ place text, ∀ e, SiteChange s context site e → SiteEdit context site place text e := by
  cases hl : site.parameters? with
  | none =>
    refine ⟨0, "", fun e he => ?_⟩
    cases he with
    | exported => exact .exported
    | parameter hl' => simp [hl] at hl'
    | use ht => exact .use ht
  | some list =>
    refine ⟨list.start + 1, if list.children = [] then context else context ++ ", ",
      fun e he => ?_⟩
    cases he with
    | exported => exact .exported
    | parameter hl' =>
      obtain rfl := Option.some.inj (hl.symm.trans hl')
      exact .parameter ⟨list, hl, .inl rfl⟩
    | use ht => exact .use ht

theorem SiteChange.within (hs : s.Regular) (hsite : site ∈ s.sites) {context : String} {e : Edit}
    (h : SiteChange s context site e) :
    (site.tree.start : Int) ≤ e.start ∧ e.start ≤ e.stop ∧ e.stop ≤ site.tree.stop ∧
      e.start < site.tree.stop := by
  obtain ⟨place, text, hedit⟩ := siteEdit_of_change s context site
  exact (hedit e h).within hs hsite

theorem SiteChange.separate (hs : s.Regular) (hsite : site ∈ s.sites) {context : String}
    {e f : Edit} (he : SiteChange s context site e) (hf : SiteChange s context site f)
    (hne : e ≠ f) : Edit.Apart e f ∧ ¬ Edit.SamePlace e f := by
  obtain ⟨place, text, hedit⟩ := siteEdit_of_change s context site
  exact (hedit e he).separate hs hsite (hedit f hf) hne

theorem PlainChange.separate (hs : s.Regular) {context : String} {e f : Edit}
    (he : PlainChange s context e) (hf : PlainChange s context f) (hne : e ≠ f) :
    Edit.Apart e f ∧ ¬ Edit.SamePlace e f := by
  obtain ⟨a, ha, he⟩ := he
  obtain ⟨b, hb, hf⟩ := hf
  rcases site_eq_or_apart hs ha hb with rfl | hapart
  · exact he.separate hs ha hf hne
  · have := he.within hs ha
    have := hf.within hs hb
    unfold Tree.Apart at hapart
    unfold Edit.Apart Edit.SamePlace
    omega

/-! ## Character boundaries -/

theorem Regular.boundary (hs : s.Regular) {t : Tree} (ht : Contains s.tree t) :
    Text.Boundary s.source t.start ∧ Text.Boundary s.source t.stop :=
  hs.boundaries t (mem_preorder.mpr ht)

theorem SiteEdit.boundary (hs : s.Regular) (hsite : site ∈ s.sites) {context text : String}
    {place : Nat} {e : Edit} (h : SiteEdit context site place text e) :
    Text.Boundary s.source e.start.toNat ∧ Text.Boundary s.source e.stop.toNat ∧
      ∃ ds, e.replacement = Text.encode ds := by
  have hroot := site_contains hsite
  cases h with
  | exported =>
    have hb := (hs.boundary hroot).1
    exact ⟨hb, hb, _, rfl⟩
  | parameter hplace =>
    obtain ⟨list, hl, hplace⟩ := hplace
    have hlistIn := hroot.trans (contains_child (child?_mem hl))
    have hb : Text.Boundary s.source place := by
      rcases hplace with rfl | ⟨p, hp, rfl⟩
      · exact (hs.boundary hlistIn).1.succ (hs.lists site hsite list hl).opened (by decide)
      · exact (hs.boundary (hlistIn.trans (contains_child hp))).2
    exact ⟨hb, hb, _, rfl⟩
  | use ht =>
    have hb := hs.boundary (hroot.trans ht.contains)
    exact ⟨hb.1, hb.2, _, rfl⟩

theorem PlainChange.boundary (hs : s.Regular) {context : String} {e : Edit}
    (h : PlainChange s context e) : Text.Boundary s.source e.start.toNat ∧
      Text.Boundary s.source e.stop.toNat ∧ ∃ ds, e.replacement = Text.encode ds := by
  obtain ⟨site, hsite, h⟩ := h
  obtain ⟨place, text, hedit⟩ := siteEdit_of_change s context site
  exact (hedit e h).boundary hs hsite

theorem PlainChange.inRange (hs : s.Regular) {context : String} {e : Edit}
    (h : PlainChange s context e) : e.InRange (Text.encode s.source).length := by
  have hstop := Text.boundary_le (h.boundary hs).2.1
  obtain ⟨site, hsite, h⟩ := h
  have := h.within hs hsite
  exact ⟨by omega, by omega, by omega⟩

/-! ## The result -/

theorem eraseDups_nodup {α : Type} [BEq α] [LawfulBEq α] : ∀ xs : List α, xs.eraseDups.Nodup
  | [] => .nil
  | x :: xs => by
    rw [List.eraseDups_cons, List.nodup_cons]
    refine ⟨fun h => ?_, eraseDups_nodup _⟩
    have := List.mem_eraseDups.mp h
    simp at this
  termination_by xs => xs.length
  decreasing_by exact Nat.lt_succ_of_le (List.length_filter_le _ _)

theorem encode_readBack (cs : List Char) : Text.encode (readBack (Text.encode cs)) =
    Text.encode cs := by
  rw [readBack, Text.decode_encode]
  rfl

/-- A plain script has no fields to declare: its result is the edited source. -/
theorem convert_plain (hd : s.dialect = .plain) {members : List Field} {r : Converted}
    (h : s.convert o members = .ok r) :
    ∃ edits, s.allSiteEdits o = .ok edits ∧ r.text = readBack (s.edited edits) := by
  cases he : s.allSiteEdits o with
  | error fault => simp [convert, he, bind, Except.bind] at h
  | ok edits =>
    refine ⟨edits, rfl, ?_⟩
    have htyped : Dialect.isTyped .plain = false := rfl
    simp only [convert, he, hd, htyped, bind, Except.bind, Bool.false_eq_true, ↓reduceIte,
      List.append_nil, withFields, List.isEmpty_nil] at h
    split at h
    · obtain rfl := Except.ok.inj h
      rfl
    · cases h

theorem convert_plain_of_parses (hd : s.dialect = .plain) {edits : List Edit}
    (he : s.allSiteEdits o = .ok edits) {text : List Char}
    (htext : readBack (s.edited edits) = text) (hp : (parse? .plain text).isSome)
    (members : List Field) : s.convert o members = .ok ⟨text, [], []⟩ := by
  obtain ⟨t, ht⟩ := Option.isSome_iff_exists.mp hp
  have htyped : Dialect.isTyped .plain = false := rfl
  simp only [convert, he, hd, htyped, bind, Except.bind, Bool.false_eq_true, ↓reduceIte,
    List.append_nil, withFields, List.isEmpty_nil, htext, ht]
  rfl

/-- Edits that are the changes of a plain script, each once, are the changes in a
left-to-right order. -/
theorem exists_changes (hs : s.Regular) {context : String} {edits : List Edit}
    (hn : edits.Nodup) (hmem : ∀ e, e ∈ edits ↔ PlainChange s context e) :
    ∃ changes : List Edit, changes.Perm edits ∧ changes.Pairwise Edit.Precedes ∧
      ∀ e ∈ changes, e.InRange (Text.encode s.source).length := by
  obtain ⟨changes, hperm, hsorted⟩ := Edit.exists_sorted hn
    (fun e he f hf hne => ((hmem e).mp he).separate hs ((hmem f).mp hf) hne)
    (fun e he => (((hmem e).mp he).inRange hs).ordered)
  exact ⟨changes, hperm, hsorted,
    fun e he => ((hmem e).mp (hperm.mem_iff.mp he)).inRange hs⟩

/-- The edits of a plain script keep apart, and its conversion is the splice of its
changes into the source, whatever the order in which the edits are enumerated. -/
theorem plain_conversion_splices (s : Script) (o : ConversionOptions) (hd : s.dialect = .plain)
    (hs : s.Regular) :
    (∀ edits, s.allSiteEdits o = .ok edits → ∀ e ∈ edits, ∀ f ∈ edits, e ≠ f →
      Edit.Apart e f ∧ ¬ Edit.SamePlace e f) ∧
    ∀ members r, s.convert o members = .ok r → ∃ edits, s.allSiteEdits o = .ok edits ∧
      (∀ es : List Edit, es.Nodup → (∀ e, e ∈ es ↔ e ∈ edits) →
        Text.encode r.text = Edit.applyAll (Text.encode s.source) es) ∧
      ∃ changes : List Edit, changes.Pairwise Edit.Precedes ∧
        (∀ e ∈ changes, e.InRange (Text.encode s.source).length) ∧
        (∀ e, e ∈ changes ↔ PlainChange s o.context e) ∧
        Text.encode r.text = Edit.splice (Text.encode s.source) 0 changes := by
  refine ⟨fun edits h e he f hf hne => ?_, fun members r h => ?_⟩
  · have hmem := mem_allSiteEdits hd hs h
    exact ((hmem e).mp he).separate hs ((hmem f).mp hf) hne
  · obtain ⟨edits, hedits, htext⟩ := convert_plain hd h
    have hmem := mem_allSiteEdits hd hs hedits
    have hmemDups : ∀ e, e ∈ edits.eraseDups ↔ PlainChange s o.context e :=
      fun e => List.mem_eraseDups.trans (hmem e)
    obtain ⟨changes, hperm, hsorted, hrange⟩ := exists_changes hs (eraseDups_nodup edits) hmemDups
    have hchanges : ∀ e, e ∈ changes ↔ PlainChange s o.context e :=
      fun e => hperm.mem_iff.trans (hmemDups e)
    have hsplice : Text.encode r.text = Edit.splice (Text.encode s.source) 0 changes := by
      obtain ⟨ds, hds⟩ := Edit.splice_encoded (Text.boundary_zero s.source)
        (fun e he => ⟨(((hchanges e).mp he).boundary hs).1, (((hchanges e).mp he).boundary hs).2.1⟩)
        (fun e he => (((hchanges e).mp he).boundary hs).2.2)
      rw [htext, edited, Edit.applyAll_eq_splice hperm hsorted hrange, hds, encode_readBack]
    refine ⟨edits, hedits, fun es hn hes => ?_, changes, hsorted, hrange, hchanges, hsplice⟩
    have hperm' : changes.Perm es := (List.perm_ext_iff_of_nodup
      (hperm.nodup_iff.mpr (eraseDups_nodup edits)) hn).mpr
      (fun e => (hchanges e).trans ((hmem e).symm.trans (hes e).symm))
    rw [hsplice, Edit.applyAll_eq_splice hperm' hsorted hrange]

def plainScript (source : String) : Script :=
  ⟨.plain, source.toList, (parse? .plain source.toList).getD (.node .plain .program 0 0 [])⟩

theorem read_plainScript (source : String) (h : (parse? .plain source.toList).isSome) :
    read .plain source.toList = .ok (plainScript source) := by
  obtain ⟨t, ht⟩ := Option.isSome_iff_exists.mp h
  rw [read, ht, plainScript, ht]
  rfl

/-- A script with a change of each kind. -/
def heroScript : Script :=
  let source := "function create(key) { new Hero(this); }".toList
  ⟨.plain, source, (parse? .plain source).getD (.node .plain .program 0 0 [])⟩

theorem heroScript_read : read .plain heroScript.source = .ok heroScript :=
  read_plainScript _ (by decide +kernel)

set_option maxRecDepth 100000 in
theorem heroScript_converts : heroScript.convert .usual [] =
    .ok ⟨"export function create(scene, key) { new Hero(scene); }".toList, [], []⟩ := by
  let changes := [insertion 0 "export ", insertion 16 "scene, ", ⟨32, 36, bytesOf "scene"⟩]
  have hedits : heroScript.allSiteEdits .usual = .ok changes := by decide +kernel
  have hedited : heroScript.edited changes = Edit.splice (Text.encode heroScript.source) 0 changes :=
    Edit.applyAll_eq_splice (by decide +kernel) (by decide +kernel) (by decide +kernel)
  refine convert_plain_of_parses rfl hedits ?_ ?_ []
  · rw [hedited]
    decide +kernel
  · decide +kernel

set_option maxRecDepth 100000 in
theorem plain_conversion_splices_hero :
    heroScript.dialect = .plain ∧ heroScript.Regular ∧
      ∃ edits, heroScript.allSiteEdits .usual = .ok edits ∧
        (∀ e ∈ edits, ∀ f ∈ edits, e ≠ f → Edit.Apart e f ∧ ¬ Edit.SamePlace e f) ∧
        ∃ changes : List Edit, (∀ e, e ∈ changes ↔ PlainChange heroScript "scene" e) ∧
          Text.encode "export function create(scene, key) { new Hero(scene); }".toList =
            Edit.splice (Text.encode heroScript.source) 0 changes := by
  have hregular : heroScript.Regular := by decide +kernel
  obtain ⟨hseparate, hsplice⟩ := plain_conversion_splices heroScript .usual rfl hregular
  obtain ⟨edits, hedits, -, changes, -, -, hchanges, htext⟩ :=
    hsplice [] _ heroScript_converts
  exact ⟨rfl, hregular, edits, hedits, hseparate edits hedits, changes, hchanges, htext⟩

end SceneSync.Script
