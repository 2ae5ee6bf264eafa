import Mathlib
import SceneSync.Proofs.Script.PlainConversion
import SceneSync.Proofs.Script.Retelling

/-!
# The second conversion

A converted script that is read as it was meant has nothing left to convert: its
sites are exported, they take the scene, and no `this` in them is one. Only the
types of the fields can come out differently, where a type hung on `this`.
-/

namespace SceneSync.Script

open Script.Tree

/-- What the grammar promises of names, arguments and lists, as far as a second
conversion leans on it. -/
structure Grammatical (s : Script) : Prop where
  identifiers : ∀ t ∈ s.tree.preorder, t.kind = .identifier ∨ t.kind = .propertyIdentifier →
    t.children = []
  names : ∀ t ∈ s.tree.preorder, isFunctionKind t.kind = true ∨ t.kind = .exportSpecifier ∨
    t.kind = .typeAliasDeclaration →
      ∀ n ∈ t.child? .name, n.children = [] ∧ n.kind ≠ .thisExpression
  arguments : ∀ t ∈ s.tree.preorder, t.kind = .newExpression →
    ∀ as ∈ t.child? .arguments, ∀ c ∈ as.children, c.role = .plain
  lists : ∀ site ∈ s.sites, ∀ c ∈ site.tree.children, c.role = .parameters →
    c.kind = .formalParameters
  /-- an export list declares nothing -/
  exports : ∀ t ∈ s.statements, s.listedIn t ≠ [] → exported? t = none

theorem grammatical_iff {s : Script} : s.Grammatical ↔
    (∀ t ∈ s.tree.preorder, t.kind = .identifier ∨ t.kind = .propertyIdentifier →
      t.children = []) ∧
    (∀ t ∈ s.tree.preorder, isFunctionKind t.kind = true ∨ t.kind = .exportSpecifier ∨
      t.kind = .typeAliasDeclaration →
        ∀ n ∈ t.child? .name, n.children = [] ∧ n.kind ≠ .thisExpression) ∧
    (∀ t ∈ s.tree.preorder, t.kind = .newExpression →
      ∀ as ∈ t.child? .arguments, ∀ c ∈ as.children, c.role = .plain) ∧
    (∀ site ∈ s.sites, ∀ c ∈ site.tree.children, c.role = .parameters →
      c.kind = .formalParameters) ∧
    (∀ t ∈ s.statements, s.listedIn t ≠ [] → exported? t = none) :=
  ⟨fun ⟨h1, h2, h3, h4, h5⟩ => ⟨h1, h2, h3, h4, h5⟩,
    fun ⟨h1, h2, h3, h4, h5⟩ => ⟨h1, h2, h3, h4, h5⟩⟩

instance (s : Script) : Decidable s.Grammatical := decidable_of_iff _ grammatical_iff.symm

/-- A parameter list into which the scene was put. The declaration of the scene has
no `this` in it. -/
def ListRetold (s s' : Script) (o : ConversionOptions) (list list' : Tree) : Prop :=
  list'.kind = list.kind ∧ ∃ n ∈ List.range list'.children.length,
    RetoldAll s s' o list.children (list'.children.eraseIdx n) ∧
      ∀ p ∈ list'.children[n]?, s'.isSceneParameter o.context p = true ∧
        ∀ u ∈ p.preorder, u.kind ≠ .thisExpression

/-- A child of a function site: a parameter list without the scene gets it. -/
def ChildRetold (s s' : Script) (o : ConversionOptions) (c c' : Tree) : Prop :=
  c'.role = c.role ∧
    if c.role = .parameters ∧ c.children.any (s.isSceneParameter o.context) = false then
      ListRetold s s' o c c'
    else Retold s s' o c c'

def SiteRetold (s s' : Script) (o : ConversionOptions) (t t' : Tree) : Prop :=
  t'.kind = t.kind ∧ List.Forall₂ (ChildRetold s s' o) t.children t'.children

instance (s s' : Script) (o : ConversionOptions) (list list' : Tree) :
    Decidable (ListRetold s s' o list list') :=
  inferInstanceAs (Decidable (_ ∧ _))

instance (s s' : Script) (o : ConversionOptions) : DecidableRel (ChildRetold s s' o) :=
  fun _ _ => inferInstanceAs (Decidable (_ ∧ _))

instance (s s' : Script) (o : ConversionOptions) : DecidableRel (SiteRetold s s' o) :=
  fun _ _ => inferInstanceAs (Decidable (_ ∧ _))

variable {s s' : Script} {o : ConversionOptions} {site : Site} {t t' u u' : Tree}

/-! ## The uses of the scene -/

theorem replaced_of_mem (hsite : site ∈ s.sites) (hu : u ∈ sceneUses site.tree) :
    s.isReplaced u = true := by
  have hkind := (sceneUse_iff.mp (mem_sceneUses.mp hu)).2
  rw [isReplaced, hkind, beq_self_eq_true, Bool.true_and, List.any_eq_true]
  exact ⟨site, hsite, List.any_eq_true.mpr ⟨u, hu, by simp⟩⟩

theorem replaced_role (hs : s.Grammatical) (h : s.isReplaced t = true) :
    t.role = .object ∨ t.role = .plain := by
  rw [isReplaced, Bool.and_eq_true, List.any_eq_true] at h
  obtain ⟨-, site, hsite, hany⟩ := h
  obtain ⟨u, hu, hsame⟩ := List.any_eq_true.mp hany
  have hrole : u.role = t.role := by
    rw [Bool.and_eq_true, beq_iff_eq, beq_iff_eq] at hsame
    exact hsame.2
  rw [← hrole]
  obtain ⟨⟨p, hp, huse⟩, -⟩ := sceneUse_iff.mp (mem_sceneUses.mp hu)
  rw [sceneUse?] at huse
  split at huse
  · exact .inl (child?_role huse)
  · exact .inl (child?_role huse)
  · obtain ⟨as, has, hhead⟩ := Option.bind_eq_some_iff.mp huse
    have hmem : p ∈ s.tree.preorder :=
      mem_preorder.mpr ((site_contains hsite).trans hp.contains)
    exact .inr (hs.arguments p hmem ‹_› as has u (List.mem_of_head? hhead))
  · cases huse

/-- The use of the scene in a node corresponds to that in what it becomes. -/
theorem Retold.rel_sceneUse (h : Retold s s' o t t') :
    Option.Rel (Retold s s' o) (sceneUse? t) (sceneUse? t') := by
  rcases h.cases with ⟨hr, -, -, hkind', -⟩ | ⟨-, hkind, -⟩
  · have hkind := isReplaced_kind hr
    simp only [sceneUse?, hkind, hkind']
    exact .none
  · rw [sceneUse?, sceneUse?, hkind]
    split
    · exact h.child? .object
    · exact h.child? .object
    · have has := h.child? .arguments
      generalize t.child? .arguments = as, t'.child? .arguments = as' at has
      cases has with
      | none => exact .none
      | @some as as' has =>
        have hcs := has.children
        simp only [Option.bind_some]
        generalize as.children = cs, as'.children = cs' at hcs
        cases hcs with
        | nil => exact .none
        | cons hc _ => exact .some hc
    · exact .none

/-- In a node that is retold no `this` is the scene any more. -/
theorem Retold.noUse (h : Retold s s' o t t')
    (hroot : ∀ u, sceneUse? t = some u → u.kind = .thisExpression → s.isReplaced u = true)
    (hu : sceneUse? t' = some u') : u'.kind ≠ .thisExpression := by
  intro hthis
  have huse := h.rel_sceneUse
  rw [hu] at huse
  generalize hv : sceneUse? t = v at huse
  cases huse with
  | @some u _ hrel =>
    rcases hrel.cases with ⟨-, -, -, hkind, -⟩ | ⟨hnot, hkind, -⟩
    · rw [hkind] at hthis
      cases hthis
    · have hreplaced := hroot u hv (hkind.symm.trans hthis)
      rw [hnot] at hreplaced
      cases hreplaced

/-- What is reached in a list that got the scene comes from the list, or else there is no
`this` in it. -/
theorem ListRetold.reaches {list list' p' : Tree} (h : ListRetold s s' o list list')
    (hkind : list.kind = .formalParameters) (hp : Reaches (· == .classBody) list' p')
    (hu : sceneUse? p' = some u') (hthis : u'.kind = .thisExpression) :
    ∃ p, Reaches (· == .classBody) list p ∧ Retold s s' o p p' := by
  obtain ⟨hkind', n, -, hall, hnew⟩ := h
  cases hp with
  | here =>
    rw [sceneUse?, hkind', hkind] at hu
    cases hu
  | @down _ c' _ _ hc hreach =>
    obtain ⟨i, hi, rfl⟩ := List.getElem_of_mem hc
    by_cases hin : i = n
    · subst hin
      obtain ⟨-, hnone⟩ := hnew _ (List.getElem?_eq_getElem hi)
      have hmem := mem_preorder.mpr (hreach.contains.trans (sceneUse?_contains hu))
      exact absurd hthis (hnone u' hmem)
    · have hkept := List.mem_eraseIdx_iff_getElem.mpr ⟨i, hi, hin, rfl⟩
      obtain ⟨c, hmem, hrel⟩ := exists_left_of_mem (retoldAll_iff.mp hall) hkept
      obtain ⟨p, hp, hpp⟩ := hrel.reaches hreach
      exact ⟨p, .down (by simp [hkind]) hmem hp, hpp⟩

/-- No `this` in a site is the scene once its uses have given way. -/
theorem SiteRetold.noUses (hs : s.Grammatical) (hsite : site ∈ s.sites)
    (hkind : isFunctionKind site.tree.kind = true) (h : SiteRetold s s' o site.tree t') :
    sceneUses t' = [] := by
  have hnotClass : (site.tree.kind == .classBody) = false := by
    rw [beq_eq_false_iff_ne]
    intro hclass
    rw [hclass] at hkind
    cases hkind
  rw [List.eq_nil_iff_forall_not_mem]
  intro u' hu'
  obtain ⟨⟨p', hp', huse⟩, hthis⟩ := sceneUse_iff.mp (mem_sceneUses.mp hu')
  have hback : ∃ p, Reaches (· == .classBody) site.tree p ∧ Retold s s' o p p' := by
    cases hp' with
    | here =>
      rw [sceneUse?, h.1] at huse
      revert hkind huse
      cases site.tree.kind <;> simp [isFunctionKind]
    | down _ hc' hreach =>
      obtain ⟨c, hc, -, hrel⟩ := exists_left_of_mem h.2 hc'
      split at hrel
      · rename_i hcond
        obtain ⟨p, hp, hpp⟩ :=
          hrel.reaches (hs.lists site hsite c hc hcond.1) hreach huse hthis
        exact ⟨p, .down hnotClass hc hp, hpp⟩
      · obtain ⟨p, hp, hpp⟩ := hrel.reaches hreach
        exact ⟨p, .down hnotClass hc hp, hpp⟩
  obtain ⟨p, hp, hpp⟩ := hback
  refine hpp.noUse (fun u hu hthis => ?_) huse hthis
  exact replaced_of_mem hsite (mem_sceneUses.mpr (sceneUse_iff.mpr ⟨⟨p, hp, hu⟩, hthis⟩))

/-! ## The parameters -/

theorem Retold.rel_parameterTarget (h : Retold s s' o t t') :
    Option.Rel (Retold s s' o) (parameterTarget? t) (parameterTarget? t') := by
  rcases h.cases with ⟨hr, -, -, hkind', -⟩ | ⟨-, hkind, -⟩
  · have hkind := isReplaced_kind hr
    simp only [parameterTarget?, isTypedParameter, hkind, hkind']
    exact .some h
  · rw [parameterTarget?, parameterTarget?, hkind]
    split
    · exact h.child? .pattern
    · split
      · exact h.child? .left
      · exact .some h

theorem parameterTarget?_contains (h : parameterTarget? t = some u) : Contains t u := by
  rw [parameterTarget?] at h
  split at h
  · exact contains_child (child?_mem h)
  · split at h
    · exact contains_child (child?_mem h)
    · obtain rfl := Option.some.inj h
      exact .here t

/-- The scene among the parameters stays there. -/
theorem Retold.isSceneParameter (hs : s.Grammatical) (hmem : Contains s.tree t)
    (h : Retold s s' o t t') (ht : s.isSceneParameter o.context t = true) :
    s'.isSceneParameter o.context t' = true := by
  have hrel := h.rel_parameterTarget
  rw [Script.isSceneParameter, Option.any_eq_true] at ht ⊢
  obtain ⟨u, hu, hscene⟩ := ht
  rw [hu] at hrel
  generalize parameterTarget? t' = v at hrel
  cases hrel with
  | @some _ u' huu =>
    rw [Bool.and_eq_true, beq_iff_eq, beq_iff_eq] at hscene
    have hleaf := hs.identifiers u
      (mem_preorder.mpr (hmem.trans (parameterTarget?_contains hu))) (.inl hscene.1)
    have hthis : u.kind ≠ .thisExpression := by simp [hscene.1]
    have htext := huu.text_of_token hleaf hthis
    refine ⟨u', rfl, ?_⟩
    rw [Bool.and_eq_true, beq_iff_eq, beq_iff_eq]
    refine ⟨?_, by rw [textString, htext]; exact hscene.2⟩
    rcases huu.cases with ⟨hr, -⟩ | ⟨-, hkind, -⟩
    · exact absurd (isReplaced_kind hr) hthis
    · rw [hkind, hscene.1]

theorem SiteRetold.child? (h : SiteRetold s s' o t t') (r : Role) :
    Option.Rel (ChildRetold s s' o) (t.child? r) (t'.child? r) :=
  rel_find_role (fun _ _ hc => hc.1) h.2 r

/-- A child in another role than the parameters is just retold. -/
theorem SiteRetold.rel_child (h : SiteRetold s s' o t t') {r : Role} (hr : r ≠ .parameters) :
    Option.Rel (Retold s s' o) (t.child? r) (t'.child? r) := by
  have hrel := h.child? r
  generalize hc : t.child? r = c, t'.child? r = c' at hrel
  cases hrel with
  | none => exact .none
  | some hcc =>
    obtain ⟨-, hcc⟩ := hcc
    rw [if_neg (fun hcond => hr (by rw [← child?_role hc, hcond.1]))] at hcc
    exact .some hcc

theorem SiteRetold.noParameterEdits (hs : s.Grammatical) (hsite : site ∈ s.sites)
    (h : SiteRetold s s' o site.tree t') (exported : Bool) :
    s'.sceneParameterEdits o ⟨t', exported⟩ = .ok [] := by
  have hrel := h.child? .parameters
  rw [sceneParameterEdits, Site.parameters?]
  simp only
  generalize hl : site.tree.child? .parameters = list, t'.child? .parameters = list' at hrel
  cases hrel with
  | none => rfl
  | @some list list' hlist =>
    have hany : list'.children.any (s'.isSceneParameter o.context) = true := by
      rw [List.any_eq_true]
      obtain ⟨-, hlist⟩ := hlist
      split at hlist
      · obtain ⟨-, n, hn, -, hnew⟩ := hlist
        have hn' : n < list'.children.length := List.mem_range.mp hn
        exact ⟨_, List.getElem_mem hn', (hnew _ (List.getElem?_eq_getElem hn')).1⟩
      · rename_i hcond
        have hthere : list.children.any (s.isSceneParameter o.context) = true := by
          by_contra hnone
          exact hcond ⟨child?_role hl, by simpa using hnone⟩
        obtain ⟨p, hp, hscene⟩ := List.any_eq_true.mp hthere
        obtain ⟨p', hp', hpp⟩ := exists_right_of_mem hlist.children hp
        have hmem : Contains s.tree p := (site_contains hsite).trans
          ((contains_child (child?_mem hl)).trans (contains_child hp))
        exact ⟨p', hp', hpp.isSceneParameter hs hmem hscene⟩
    simp only [hany, ↓reduceIte]

/-! ## The statements -/

/-- A statement with a function site becomes an export of it, unless a list exports it. -/
def StatementRetold (s s' : Script) (o : ConversionOptions) (t t' : Tree) : Prop :=
  (s.siteOf? t = none → Retold s s' o t t') ∧
    ∀ site ∈ s.siteOf? t, if t.kind = .exportStatement ∨ site.exported = false then
      t'.kind = .exportStatement ∧ ∃ d ∈ exported? t', SiteRetold s s' o site.tree d
    else SiteRetold s s' o site.tree t'

instance (s s' : Script) (o : ConversionOptions) : DecidableRel (StatementRetold s s' o) :=
  fun _ _ => inferInstanceAs (Decidable (_ ∧ _))

theorem siteOf?_kind (h : s.siteOf? t = some site) : isFunctionKind site.tree.kind = true := by
  cases siteOf?_cases h with
  | inl h =>
    obtain ⟨hdeclared, -, rfl⟩ := h
    rw [isDeclaredFunction, Bool.and_eq_true] at hdeclared
    exact hdeclared.1
  | inr h => exact h.2.2.1

theorem siteOf?_of_export (ht : t.kind = .exportStatement) {d : Tree} (hd : exported? t = some d)
    (hkind : isFunctionKind d.kind = true) : s.siteOf? t = some ⟨d, true⟩ := by
  have hdeclared : isDeclaredFunction t.kind = false := by
    rw [ht]
    rfl
  rw [siteOf?, hdeclared, ht, hd]
  simp only [Bool.false_eq_true, ↓reduceIte, beq_self_eq_true, hkind]

/-- A name is kept with its text. -/
theorem name?_eq_of_rel {R : Tree → Tree → Prop}
    (hrel : Option.Rel R (t.child? .name) (t'.child? .name))
    (htext : ∀ n n', t.child? .name = some n → R n n' → s'.text n' = s.text n) :
    s'.name? t' = s.name? t := by
  rw [name?, name?]
  generalize t.child? .name = n, t'.child? .name = n' at hrel htext
  cases hrel with
  | none => rfl
  | @some n n' hnn =>
    rw [Option.map_some, Option.map_some, textString, textString, htext n n' rfl hnn]

/-- A declared function whose name is listed is an exported site. -/
theorem siteOf?_listed (hdeclared : isDeclaredFunction t'.kind = true)
    (hname : s'.name? t' = s.name? t)
    (hlisted : (s.name? t).any s.listedNames.contains = true)
    (hsub : ∀ name ∈ s.listedNames, name ∈ s'.listedNames) : s'.siteOf? t' = some ⟨t', true⟩ := by
  obtain ⟨n, hn, hin⟩ := (Option.any_eq_true _ _).mp hlisted
  rw [List.contains_iff_mem] at hin
  rw [siteOf?, if_pos hdeclared, hname, hn, Option.any_some,
    List.contains_iff_mem.mpr (hsub n hin)]

/-- The name of a node whose name is a token. -/
theorem name?_eq (hrel : Option.Rel (Retold s s' o) (t.child? .name) (t'.child? .name))
    (hname : ∀ n ∈ t.child? .name, n.children = [] ∧ n.kind ≠ .thisExpression) :
    s'.name? t' = s.name? t := by
  refine name?_eq_of_rel hrel fun n n' hn hnn => ?_
  obtain ⟨hleaf, hthis⟩ := hname n hn
  exact hnn.text_of_token hleaf hthis

/-- A relation that keeps export lists, and the names in them, keeps what they list. -/
theorem mem_listedIn_of_rel {R : Tree → Tree → Prop} (hrole : ∀ u u', R u u' → u'.role = u.role)
    (hkind : ∀ u u', R u u' →
      u.kind = .exportStatement ∨ u.kind = .exportClause ∨ u.kind = .exportSpecifier →
        u'.kind = u.kind)
    (hchildren : ∀ u u', R u u' → List.Forall₂ R u.children u'.children)
    (hname : ∀ u u', Contains t u → R u u' → u.kind = .exportSpecifier → s'.name? u' = s.name? u)
    (h : R t t') {name : String} (hlisted : name ∈ s.listedIn t) : name ∈ s'.listedIn t' := by
  rw [listedIn] at hlisted ⊢
  split at hlisted
  · rename_i hcond
    rw [Bool.and_eq_true, beq_iff_eq] at hcond
    have hsource : Option.Rel R (t.child? .source) (t'.child? .source) :=
      rel_find_role hrole (hchildren t t' h) .source
    have hnone : (t'.child? .source).isNone = true := by
      have hcond' := hcond.2
      generalize t.child? .source = c, t'.child? .source = c' at hsource hcond'
      cases hsource with
      | none => rfl
      | some => simp at hcond'
    rw [if_pos (by simp [hkind t t' h (.inl hcond.1), hcond.1, hnone])]
    obtain ⟨c, hc, hlisted⟩ := List.mem_flatMap.mp hlisted
    obtain ⟨sp, hsp, hspName⟩ := List.mem_filterMap.mp hlisted
    obtain ⟨hc, hcKind⟩ := List.mem_filter.mp hc
    obtain ⟨hsp, hspKind⟩ := List.mem_filter.mp hsp
    rw [beq_iff_eq] at hcKind hspKind
    obtain ⟨c', hc', hcc⟩ := exists_right_of_mem (hchildren t t' h) hc
    obtain ⟨sp', hsp', hspsp⟩ := exists_right_of_mem (hchildren c c' hcc) hsp
    have hcKind' := (hkind c c' hcc (.inr (.inl hcKind))).trans hcKind
    have hspKind' := (hkind sp sp' hspsp (.inr (.inr hspKind))).trans hspKind
    refine List.mem_flatMap.mpr ⟨c', List.mem_filter.mpr ⟨hc', by simp [hcKind']⟩, ?_⟩
    refine List.mem_filterMap.mpr ⟨sp', List.mem_filter.mpr ⟨hsp', by simp [hspKind']⟩, ?_⟩
    rw [hname sp sp' ((contains_child hc).trans (contains_child hsp)) hspsp hspKind]
    exact hspName
  · cases hlisted

/-- The names in an export list are listed still. -/
theorem Retold.mem_listedIn (hs : s.Grammatical) (hmem : Contains s.tree t)
    (h : Retold s s' o t t') {name : String} (hname : name ∈ s.listedIn t) :
    name ∈ s'.listedIn t' := by
  refine mem_listedIn_of_rel (fun _ _ h => h.role) (fun u u' hu hk => ?_)
    (fun _ _ h => h.children) (fun u u' hin hu hk => ?_) h hname
  · refine (hu.kind_iff ?_ ?_).mpr rfl
    · rintro hname
      simp [hname] at hk
    · rintro hthis
      simp [hthis] at hk
  · exact name?_eq (hu.child? .name) (hs.names u (mem_preorder.mpr (hmem.trans hin))
      (.inr (.inl hk)))

/-- The statements of a converted script, read as they were meant: those of the source
without old aliases, and behind them the alias of the fields if there are any. -/
structure ReadsBack (s s' : Script) (o : ConversionOptions) (fields : List Field) : Prop where
  kept : List.Forall₂ (StatementRetold s s' o) (s.statements.filter (!s.isOldAlias ·))
    (s'.statements.filter (!s'.isOldAlias ·))
  aliases : (s'.statements.filter s'.isOldAlias).length = if fields = [] then 0 else 1
  written : ∀ t ∈ s'.statements, s'.isOldAlias t = true →
    t.start + (bytesOf (Extensions.render fields)).length = t.stop ∧
      t.stop + 1 = (Text.encode s'.source).length

theorem readsBack_iff {fields : List Field} : ReadsBack s s' o fields ↔
    List.Forall₂ (StatementRetold s s' o) (s.statements.filter (!s.isOldAlias ·))
      (s'.statements.filter (!s'.isOldAlias ·)) ∧
    ((s'.statements.filter s'.isOldAlias).length = if fields = [] then 0 else 1) ∧
    ∀ t ∈ s'.statements, s'.isOldAlias t = true →
      t.start + (bytesOf (Extensions.render fields)).length = t.stop ∧
        t.stop + 1 = (Text.encode s'.source).length :=
  ⟨fun ⟨h1, h2, h3⟩ => ⟨h1, h2, h3⟩, fun ⟨h1, h2, h3⟩ => ⟨h1, h2, h3⟩⟩

instance (s s' : Script) (o : ConversionOptions) (fields : List Field) :
    Decidable (ReadsBack s s' o fields) :=
  decidable_of_iff _ readsBack_iff.symm

theorem sites_eq (s : Script) :
    s.sites = (s.statements.filter (!s.isOldAlias ·)).filterMap s.siteOf? := by
  rw [sites, List.filterMap_filter]
  refine List.filterMap_congr fun t _ => ?_
  cases h : s.isOldAlias t
  · rfl
  · simp [siteOf?_of_alias h]

/-- A statement that lists names is no site. -/
theorem siteOf?_of_listed (hs : s.Grammatical) (ht : t ∈ s.statements) {name : String}
    (hname : name ∈ s.listedIn t) : s.siteOf? t = none ∧ s.isOldAlias t = false := by
  have hexported := hs.exports t ht (List.ne_nil_of_mem hname)
  have hkind : t.kind = .exportStatement := by
    rw [listedIn] at hname
    split at hname
    · simp_all
    · cases hname
  have hdeclaration : t.child? .declaration = none := by
    rw [exported?] at hexported
    cases hd : t.child? .declaration with
    | none => rfl
    | some d => simp [hd] at hexported
  constructor
  · simp [siteOf?, hkind, hexported, isDeclaredFunction, isFunctionKind]
  · simp [isOldAlias, hkind, hdeclaration]

/-- A name in an export list is in one that is kept. -/
theorem listedNames_subset (hs : s.Grammatical) {fields : List Field}
    (h : ReadsBack s s' o fields) {name : String} (hname : name ∈ s.listedNames) :
    name ∈ s'.listedNames := by
  obtain ⟨t, ht, hname⟩ := List.mem_flatMap.mp hname
  obtain ⟨hsite, halias⟩ := siteOf?_of_listed hs ht hname
  obtain ⟨t', ht', hrel⟩ := exists_right_of_mem h.kept
    (List.mem_filter.mpr ⟨ht, by simp [halias]⟩)
  exact List.mem_flatMap.mpr ⟨t', (List.mem_filter.mp ht').1,
    (hrel.1 hsite).mem_listedIn hs (contains_child ht) hname⟩

theorem Retold.isFunctionKind (h : Retold s s' o t t') :
    isFunctionKind t'.kind = Script.isFunctionKind t.kind := by
  rcases h.cases with ⟨hr, -, -, hkind, -⟩ | ⟨-, hkind, -⟩
  · rw [hkind, isReplaced_kind hr]
    rfl
  · rw [hkind]

theorem rel_exported {R : Tree → Tree → Prop} (hrole : ∀ c c', R c c' → c'.role = c.role)
    (h : List.Forall₂ R t.children t'.children) :
    Option.Rel R (exported? t) (exported? t') := by
  have hd : Option.Rel R (t.child? .declaration) (t'.child? .declaration) :=
    rel_find_role hrole h .declaration
  rw [exported?, exported?]
  generalize t.child? .declaration = d, t'.child? .declaration = d' at hd
  cases hd with
  | none => exact rel_find_role hrole h .value
  | some hdd => exact .some hdd

/-- What is no site does not become one as long as kinds are kept. -/
theorem siteOf?_none_of_rel
    (hdeclared : isDeclaredFunction t'.kind = isDeclaredFunction t.kind)
    (hexport : t'.kind = .exportStatement ↔ t.kind = .exportStatement)
    (hrel : Option.Rel (fun d d' => isFunctionKind d'.kind = isFunctionKind d.kind)
      (exported? t) (exported? t'))
    (ht : s.siteOf? t = none) : s'.siteOf? t' = none := by
  rw [siteOf?] at ht ⊢
  split at ht
  · cases ht
  · rename_i hnot
    rw [hdeclared, if_neg hnot]
    by_cases hk : t.kind = .exportStatement
    · simp only [hk, hexport.mpr hk, beq_self_eq_true, ↓reduceIte] at ht ⊢
      generalize exported? t = d, exported? t' = d' at hrel ht
      cases hrel with
      | none => rfl
      | @some d d' hdd =>
        have hplain : isFunctionKind d.kind = false := by
          by_contra hfunction
          rw [Bool.not_eq_false] at hfunction
          simp [hfunction] at ht
        simp [hdd, hplain]
    · have hk' : ¬ t'.kind = .exportStatement := fun h => hk (hexport.mp h)
      simp [hk']

theorem Retold.siteOf?_none (h : Retold s s' o t t') (ht : s.siteOf? t = none) :
    s'.siteOf? t' = none := by
  refine siteOf?_none_of_rel ?_ (h.kind_iff (by decide) (by decide)) ?_ ht
  · rcases h.cases with ⟨hr, -, -, hkind, -⟩ | ⟨-, hkind, -⟩
    · rw [hkind, isReplaced_kind hr]
      rfl
    · rw [hkind]
  · have hrel := rel_exported (fun _ _ h => Retold.role h) h.children
    generalize exported? t = d, exported? t' = d' at hrel
    cases hrel with
    | none => exact .none
    | some hdd => exact .some hdd.isFunctionKind

/-- Every site of the source is an exported one in the converted script. -/
theorem rel_siteOf (hs : s.Grammatical) {fields : List Field} (hback : ReadsBack s s' o fields)
    (ht : t ∈ s.statements) (h : StatementRetold s s' o t t') :
    Option.Rel (fun a b : Site => SiteRetold s s' o a.tree b.tree ∧ b.exported = true)
      (s.siteOf? t) (s'.siteOf? t') := by
  obtain ⟨hplain, hsites⟩ := h
  cases hsite : s.siteOf? t with
  | none =>
    rw [(hplain hsite).siteOf?_none hsite]
    exact .none
  | some site =>
    have hkind := siteOf?_kind hsite
    have h := hsites site hsite
    split at h
    · obtain ⟨hk, d, hd, hrel⟩ := h
      rw [siteOf?_of_export hk hd (by rw [hrel.1, hkind])]
      exact .some ⟨hrel, rfl⟩
    · rename_i hcond
      rw [not_or, Bool.not_eq_false] at hcond
      cases siteOf?_cases hsite with
      | inl hcases =>
        obtain ⟨hdeclared, -, rfl⟩ := hcases
        have hname : s'.name? t' = s.name? t := by
          refine name?_eq (h.rel_child (by decide)) (hs.names t ?_ (.inl hkind))
          exact mem_preorder.mpr (contains_child ht)
        rw [siteOf?_listed (by rw [h.1]; exact hdeclared) hname hcond.2
          fun _ => listedNames_subset hs hback]
        exact .some ⟨h, rfl⟩
      | inr hcases => exact absurd hcases.1 hcond.1

/-- The sites of a converted script are those of its source, all of them exported. -/
theorem rel_sites (hs : s.Grammatical) {fields : List Field} (hback : ReadsBack s s' o fields) :
    List.Forall₂ (fun a b : Site => SiteRetold s s' o a.tree b.tree ∧ b.exported = true)
      s.sites s'.sites := by
  rw [sites_eq s, sites_eq s']
  have hkept := (List.forall₂_and_left (p := (· ∈ s.statements)) _ _).mpr
    ⟨fun t ht => (List.mem_filter.mp ht).1, hback.kept⟩
  exact List.rel_filterMap (fun _ _ h => rel_siteOf hs hback h.1 h.2) hkept

/-- In a converted script there is nothing to edit in the sites. -/
theorem allSiteEdits_nil (hs : s.Grammatical) {fields : List Field}
    (hback : ReadsBack s s' o fields) : s'.allSiteEdits o = .ok [] := by
  have hnone : ∀ site' ∈ s'.sites, s'.siteEdits o site' = .ok [] := by
    intro site' hsite'
    obtain ⟨site, hsite, hrel, hexported⟩ := exists_left_of_mem (rel_sites hs hback) hsite'
    have hkind : Script.isFunctionKind site.tree.kind = true := by
      obtain ⟨t, -, ht⟩ := List.mem_filterMap.mp hsite
      exact siteOf?_kind ht
    have hparameters := hrel.noParameterEdits hs hsite site'.exported
    rw [siteEdits, hparameters]
    simp [bind, Except.bind, pure, Except.pure, exportEdits, hexported, sceneUseEdits,
      hrel.noUses hs hsite hkind]
  have hmap : s'.sites.mapM (s'.siteEdits o) = .ok (s'.sites.map fun _ => []) := by
    rw [mapM_ok_iff, List.forall₂_map_right_iff, List.forall₂_same]
    exact hnone
  simp [allSiteEdits, hmap, bind, Except.bind, pure, Except.pure]

end SceneSync.Script
