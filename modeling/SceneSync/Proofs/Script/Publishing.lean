import Mathlib
import SceneSync.Proofs.Script.TypedConversion

/-!
# Published fields

A conversion declares a field for each local that a site publishes, that is, assigns
to a member of the scene of the same name. The assignment is looked for in the whole
body of the site, and `this` gives way to the scene outside the bodies of classes
only: in a class within a site the two part.
-/

namespace SceneSync.Script

open Script.Tree

variable {s : Script} {o : ConversionOptions} {site : Site} {context name : String}

/-- In the body of a site, an assignment that publishes a local, and what it assigns to
a member of. -/
structure Publishes (s : Script) (context : String) (site : Site) (t receiver : Tree)
    (name : String) : Prop where
  mem : site ∈ s.sites
  body : ∃ body, site.body? = some body ∧ Contains body t ∧
    name ∈ (s.instantiations body).map (·.name)
  assignment : s.publication? context t = some name
  receiver : ∃ l, t.child? .left = some l ∧ l.child? .object = some receiver

/-- Whether a node is the name of the scene once the edits are made. -/
inductive BecomesScene (s : Script) (context : String) (edits : List Edit) (u : Tree) : Prop
  | already : u.kind = .identifier → s.textString u = context → BecomesScene s context edits u
  | replaced : u.kind = .thisExpression → ⟨u.start, u.stop, bytesOf context⟩ ∈ edits →
      BecomesScene s context edits u

/-! ## What is published -/

theorem publication?_eq (s : Script) (context : String) (t : Tree) : s.publication? context t =
    if t.kind = .assignmentExpression then
      (t.child? .left).bind fun l => (t.child? .right).bind fun r =>
        if l.kind = .memberExpression ∧ r.kind = .identifier then
          (l.child? .object).bind fun o => (l.child? .property).bind fun p =>
            if s.isScene context o = true ∧ p.kind = .propertyIdentifier ∧ s.text p = s.text r then
              some (s.textString r)
            else none
        else none
    else none := by
  rw [publication?]
  by_cases hk : t.kind = .assignmentExpression
  · cases t.child? .left with
    | none => simp [hk]
    | some l =>
      cases t.child? .right with
      | none => simp [hk]
      | some r =>
        by_cases hlr : l.kind = .memberExpression ∧ r.kind = .identifier
        · cases ho : l.child? .object with
          | none => simp [hk, hlr, ho]
          | some o =>
            cases hp : l.child? .property with
            | none => simp [hk, hlr, ho, hp]
            | some p =>
              by_cases hpr : s.isScene context o = true ∧ p.kind = .propertyIdentifier ∧
                s.text p = s.text r <;> simp [hk, hlr, ho, hp, hpr, and_assoc]
        · simp [hk, hlr]
  · simp [hk]

theorem instantiation?_eq (s : Script) (t : Tree) : s.instantiation? t =
    if t.kind = .variableDeclarator then
      (t.child? .name).bind fun n => (t.child? .value).bind fun v =>
        if n.kind = .identifier ∧ v.kind = .newExpression then
          some ⟨s.textString n, s.constructedType v, t.start⟩
        else none
    else none := by
  rw [instantiation?]
  by_cases hk : t.kind = .variableDeclarator
  · cases t.child? .name with
    | none => simp [hk]
    | some n =>
      cases t.child? .value with
      | none => simp [hk]
      | some v => by_cases hnv : n.kind = .identifier ∧ v.kind = .newExpression <;> simp [hk, hnv]
  · simp [hk]

/-- What is published is assigned to a member of the scene. -/
theorem receiver_of_publication {t : Tree} (h : s.publication? context t = some name) :
    t.kind = .assignmentExpression ∧ ∃ l receiver, t.child? .left = some l ∧
      l.kind = .memberExpression ∧ l.child? .object = some receiver ∧
      s.isScene context receiver = true := by
  rw [publication?_eq] at h
  split at h
  · rename_i hk
    obtain ⟨l, hl, h⟩ := Option.bind_eq_some_iff.mp h
    obtain ⟨r, -, h⟩ := Option.bind_eq_some_iff.mp h
    split at h
    · rename_i hlr
      obtain ⟨u, hu, h⟩ := Option.bind_eq_some_iff.mp h
      obtain ⟨p, -, h⟩ := Option.bind_eq_some_iff.mp h
      split at h
      · exact ⟨hk, l, u, hl, hlr.1, hu, (‹_ ∧ _› : _ ∧ _).1⟩
      · cases h
    · cases h
  · cases h

theorem mem_publishedNames {body : Tree} : name ∈ s.publishedNames context body ↔
    (∃ t, Contains body t ∧ s.publication? context t = some name) ∧
      name ∈ (s.instantiations body).map (·.name) := by
  rw [publishedNames, List.mem_eraseDups, List.mem_filter, List.mem_filterMap,
    List.contains_iff_mem]
  simp only [mem_preorder]

/-- Joining types keeps the names. -/
theorem joined_names (known : List Publication) (p : Publication) :
    (known.map fun k => if k.name == p.name then
      Publication.mk k.name (k.types ++ p.types).eraseDups else k).map (·.name) =
    known.map (·.name) := by
  rw [List.map_map]
  refine List.map_congr_left fun k _ => ?_
  simp only [Function.comp]
  split <;> rfl

theorem mem_addPublication_names {known : List Publication} {p : Publication} :
    name ∈ (addPublication known p).map (·.name) ↔ name ∈ known.map (·.name) ∨ name = p.name := by
  rw [addPublication]
  split
  · rename_i hany
    obtain ⟨k, hk, hkp⟩ := List.any_eq_true.mp hany
    rw [joined_names, iff_self_or]
    rintro rfl
    exact List.mem_map.mpr ⟨k, hk, by simpa using hkp⟩
  · rw [List.map_append, List.mem_append, List.map_singleton, List.mem_singleton]

theorem mem_foldl_addPublication_names {ps known : List Publication} :
    name ∈ (ps.foldl addPublication known).map (·.name) ↔
      name ∈ known.map (·.name) ∨ name ∈ ps.map (·.name) := by
  induction ps generalizing known with
  | nil => simp
  | cons p ps ih => rw [List.foldl_cons, ih, mem_addPublication_names, List.map_cons,
      List.mem_cons, or_assoc]

/-- A name is published when some assignment publishes it. -/
theorem mem_allPublications_names : name ∈ (s.allPublications context).map (·.name) ↔
    ∃ site t receiver, Publishes s context site t receiver name := by
  rw [allPublications, mem_foldl_addPublication_names, List.map_flatMap, List.mem_flatMap]
  simp only [List.map_nil, List.not_mem_nil, false_or, publications, List.map_map,
    Function.comp_def, List.map_id', mem_publishedNames, List.mem_filterMap]
  constructor
  · rintro ⟨body, ⟨site, hsite, hbody⟩, ⟨t, ht, hp⟩, hname⟩
    obtain ⟨-, l, receiver, hl, -, hr, -⟩ := receiver_of_publication hp
    exact ⟨site, t, receiver, hsite, ⟨body, hbody, ht, hname⟩, hp, l, hl, hr⟩
  · rintro ⟨site, t, receiver, hsite, ⟨body, hbody, ht, hname⟩, hp, -⟩
    exact ⟨body, ⟨site, hsite, hbody⟩, ⟨t, ht, hp⟩, hname⟩

/-! ## What is declared -/

/-- Members come behind the fields that there are. -/
theorem addMembers_eq_append (fields members : List Field) :
    ∃ added, (addMembers fields members).1 = fields ++ added ∧ added ⊆ members := by
  induction members generalizing fields with
  | nil => exact ⟨[], by simp [addMembers], by simp⟩
  | cons m ms ih =>
    rw [addMembers]
    split
    · obtain ⟨added, h, hsub⟩ := ih fields
      exact ⟨added, h, fun f hf => List.mem_cons_of_mem m (hsub hf)⟩
    · obtain ⟨added, h, hsub⟩ := ih (fields ++ [m])
      refine ⟨m :: added, by rw [h, List.append_assoc, List.singleton_append], ?_⟩
      exact List.cons_subset_cons m hsub

theorem fieldsOf_eq_append (published : List Publication) (members : List Field) :
    ∃ own added, (fieldsOf published members).1 = own ++ added ∧
      own.map (·.name) = published.map (·.name) ∧ added ⊆ members := by
  obtain ⟨added, h, hsub⟩ := addMembers_eq_append
    (published.map fun p => Field.mk p.name (" | ".intercalate p.types)) members
  refine ⟨_, added, h, ?_, hsub⟩
  rw [List.map_map]
  rfl

/-! ## Where `this` gives way -/

/-- An edit that takes bytes away from a site puts the scene in place of a `this`. -/
theorem sceneUse_of_edit {edits : List Edit} (h : s.allSiteEdits o = .ok edits) {e : Edit}
    (he : e ∈ edits) (hne : e.start ≠ e.stop) : ∃ site ∈ s.sites, ∃ v, SceneUse site.tree v ∧
      e = ⟨v.start, v.stop, bytesOf o.context⟩ := by
  obtain ⟨site, hsite, l, hl, he⟩ := (mem_allSiteEdits_iff h e).mp he
  obtain ⟨place, text, hedit⟩ := siteEdit_of_siteEdits hl
  cases hedit e he with
  | exported => exact absurd rfl hne
  | parameter => exact absurd rfl hne
  | use hv => exact ⟨site, hsite, _, hv, rfl⟩

/-- Every `this` of the scene is edited. -/
theorem edit_of_sceneUse {edits : List Edit} (h : s.allSiteEdits o = .ok edits)
    (hsite : site ∈ s.sites) {u : Tree} (hu : SceneUse site.tree u) :
    ⟨u.start, u.stop, bytesOf o.context⟩ ∈ edits := by
  obtain ⟨l, hl⟩ := siteEdits_ok h hsite
  obtain ⟨parameters, -, rfl⟩ := siteEdits_eq_ok.mp hl
  refine (mem_allSiteEdits_iff h _).mpr ⟨site, hsite, _, hl, List.mem_append_right _ ?_⟩
  exact List.mem_map.mpr ⟨u, mem_sceneUses.mpr hu, rfl⟩

theorem Publishes.contains {t receiver : Tree} (h : Publishes s context site t receiver name) :
    Contains site.tree t := by
  obtain ⟨body, hbody, ht, -⟩ := h.body
  exact (contains_child (child?_mem hbody)).trans ht

theorem Publishes.contains_receiver {t receiver : Tree}
    (h : Publishes s context site t receiver name) : Contains site.tree receiver := by
  obtain ⟨l, hl, hr⟩ := h.receiver
  exact h.contains.trans ((contains_child (child?_mem hl)).trans (contains_child (child?_mem hr)))

theorem Publishes.isScene {t receiver : Tree} (h : Publishes s context site t receiver name) :
    receiver.kind = .thisExpression ∨
      receiver.kind = .identifier ∧ s.textString receiver = context := by
  obtain ⟨-, l, u, hl, -, hu, hscene⟩ := receiver_of_publication h.assignment
  obtain ⟨l', hl', hr⟩ := h.receiver
  obtain rfl := Option.some.inj (hl.symm.trans hl')
  obtain rfl := Option.some.inj (hu.symm.trans hr)
  simpa [Script.isScene] using hscene

/-- The receiver of an assignment outside the bodies of classes is a use of the scene. -/
theorem Publishes.use {t receiver : Tree} (h : Publishes s context site t receiver name)
    (hthis : receiver.kind = .thisExpression)
    (ht : Reaches (· == .classBody) site.tree t) : SceneUse site.tree receiver := by
  obtain ⟨hk, l, u, hl, hlk, hu, -⟩ := receiver_of_publication h.assignment
  obtain ⟨l', hl', hr⟩ := h.receiver
  obtain rfl := Option.some.inj (hl.symm.trans hl')
  refine .object (ht.trans (.down ?_ (child?_mem hl) (.here l))) (.inl hlk) hr hthis
  rw [hk]
  rfl

/-- No other receiver is a use of the scene: what it is a child of has one place in the
script. -/
theorem Publishes.reaches_of_use (hs : s.Regular) {t receiver : Tree}
    (h : Publishes s context site t receiver name)
    (hu : SceneUse site.tree receiver) : Reaches (· == .classBody) site.tree t := by
  obtain ⟨htoken, hnonempty⟩ := hu.token hs h.mem
  obtain ⟨hk, l, u, hl, hlk, hu', -⟩ := receiver_of_publication h.assignment
  obtain ⟨l', hl', hr⟩ := h.receiver
  obtain rfl := Option.some.inj (hl.symm.trans hl')
  have hnest := hs.site_nested h.mem
  have hlContains : Contains site.tree l := h.contains.trans (contains_child (child?_mem hl))
  have hrMem := child?_mem hr
  have hlReached : Reaches (· == .classBody) site.tree l := by
    cases hu with
    | @object v hv hvk hvo hthis =>
      obtain rfl := hnest.parent_unique hv.contains hlContains (child?_mem hvo) hrMem hnonempty
      exact hv
    | @argument v as hv hvk has hhead hthis =>
      have hasContains := hv.contains.trans (contains_child (child?_mem has))
      have heq := hnest.parent_unique hasContains hlContains (List.mem_of_head? hhead) hrMem
        hnonempty
      have hrole : Role.arguments = Role.left := by
        rw [← child?_role has, heq, child?_role hl]
      cases hrole
  have hne : site.tree ≠ l := fun heq =>
    not_contains_parent (child?_mem hl) (heq ▸ h.contains)
  obtain ⟨q, hq, -, hlq⟩ := hlReached.parent hne
  obtain ⟨h1, -, h2⟩ := (hnest.contains hlContains).2.1.contains (contains_child hrMem)
  obtain rfl := hnest.parent_unique hq.contains h.contains hlq (child?_mem hl) (by omega)
  exact hq

/-- A `this` is edited exactly where it is the scene. -/
theorem edit_mem_iff (hs : s.Regular) {edits : List Edit} (h : s.allSiteEdits o = .ok edits)
    (hsite : site ∈ s.sites) {u : Tree} (hu : Contains site.tree u)
    (hthis : u.kind = .thisExpression) :
    ⟨u.start, u.stop, bytesOf o.context⟩ ∈ edits ↔ SceneUse site.tree u := by
  refine ⟨fun he => ?_, edit_of_sceneUse h hsite⟩
  have huMem := (site_contains hsite).trans hu
  obtain ⟨hleaf, hnonempty⟩ := hs.tokens u (mem_preorder.mpr huMem) hthis
  obtain ⟨site', hsite', v, hv, heq⟩ := sceneUse_of_edit h he (by simp only; omega)
  simp only [Edit.mk.injEq, Int.natCast_inj, and_true] at heq
  have hvMem := (site_contains hsite').trans hv.contains
  obtain rfl : u = v := by
    rcases hs.nested.contains_or_apart huMem hvMem with huv | hvu | hapart
    · exact leaf_contains hleaf huv
    · exact (leaf_contains (hv.token hs hsite').1 hvu).symm
    · unfold Tree.Apart at hapart
      omega
  rcases site_eq_or_apart hs hsite hsite' with rfl | hapart
  · exact hv
  · obtain ⟨h1, -, h2⟩ := (hs.site_nested hsite).contains hu
    obtain ⟨h3, -, h4⟩ := (hs.site_nested hsite').contains hv.contains
    unfold Tree.Apart at hapart
    omega

/-- The fields of a typed conversion that are no members are the names that the sites
publish. What such a name is assigned to becomes the scene when it is the scene's name
already or stands in no body of a class within the site, and in a regular script only
then. -/
theorem published_fields_assigned (s : Script) (o : ConversionOptions) (members : List Field)
    (r : Converted) (hd : s.dialect = .typed) (h : s.convert o members = .ok r) :
    ∃ edits own added, s.allSiteEdits o = .ok edits ∧ r.fields = own ++ added ∧
      added ⊆ members ∧
      (∀ name, name ∈ own.map (·.name) ↔
        ∃ site t receiver, Publishes s o.context site t receiver name) ∧
      ∀ site t receiver name, Publishes s o.context site t receiver name →
        (receiver.kind = .identifier ∨ Reaches (· == .classBody) site.tree t →
          BecomesScene s o.context edits receiver) ∧
        (s.Regular → BecomesScene s o.context edits receiver →
          receiver.kind = .identifier ∨ Reaches (· == .classBody) site.tree t) := by
  obtain ⟨edits, hedits, hfields, -⟩ := (convert_typed_iff hd).mp h
  obtain ⟨own, added, hsplit, hown, hadded⟩ :=
    fieldsOf_eq_append (s.allPublications o.context) members
  refine ⟨edits, own, added, hedits, hfields.trans hsplit, hadded, fun name => ?_, ?_⟩
  · rw [hown, mem_allPublications_names]
  · intro site t receiver name hp
    have hreceiver := hp.isScene
    constructor
    · intro hcond
      rcases hreceiver with hthis | ⟨hk, htext⟩
      · have hreach := hcond.resolve_left (by simp [hthis])
        exact .replaced hthis (edit_of_sceneUse hedits hp.mem (hp.use hthis hreach))
      · exact .already hk htext
    · rintro hs (⟨hk, -⟩ | ⟨hthis, he⟩)
      · exact .inl hk
      · have huse := (edit_mem_iff hs hedits hp.mem hp.contains_receiver hthis).mp he
        exact .inr (hp.reaches_of_use hs huse)

set_option maxRecDepth 100000 in
theorem published_fields_assigned_hero :
    (typedScript heroSource).convert .usual [] = .ok heroConverted ∧
      ∃ edits, (typedScript heroSource).allSiteEdits .usual = .ok edits ∧
        ∃ site t receiver, Publishes (typedScript heroSource) "scene" site t receiver "hero" ∧
          BecomesScene (typedScript heroSource) "scene" edits receiver := by
  obtain ⟨edits, own, added, hedits, hfields, hadded, hown, hassigned⟩ :=
    published_fields_assigned (typedScript heroSource) .usual [] heroConverted rfl
      heroSource_converts
  obtain rfl : added = [] := List.subset_nil.mp hadded
  have hname : "hero" ∈ own.map (·.name) := by
    rw [← (hfields.trans (List.append_nil own))]
    decide
  obtain ⟨site, t, receiver, hp⟩ := (hown "hero").mp hname
  have hclass : ∀ u ∈ (typedScript heroSource).tree.preorder, (u.kind == .classBody) = false := by
    decide +kernel
  have hreach : Reaches (· == .classBody) site.tree t :=
    hp.contains.reaches fun u hu => hclass u (mem_preorder.mpr ((site_contains hp.mem).trans hu))
  exact ⟨heroSource_converts, edits, hedits, site, t, receiver, hp,
    (hassigned site t receiver "hero" hp).1 (.inr hreach)⟩

/-- A function that publishes in a class only. -/
def tagSource : String :=
  "function create() { const hero = new Hero(); class Tag { mark() { this.hero = hero; } } }"

def tagConverted : Converted :=
  ⟨("export function create(scene: Phaser.Scene | any) " ++
    "{ const hero = new Hero(); class Tag { mark() { this.hero = hero; } } }" ++
    "\n\nexport type SceneExtensions = \x7b\n  hero: Hero;\n\x7d;\n").toList,
    [⟨"hero", "Hero"⟩], []⟩

set_option maxRecDepth 100000 in
/-- A field can be declared that the scene never gets. -/
theorem published_field_not_assigned :
    (typedScript tagSource).convert .usual [] = .ok tagConverted ∧
      ∃ edits, (typedScript tagSource).allSiteEdits .usual = .ok edits ∧
        ∀ site t receiver, Publishes (typedScript tagSource) "scene" site t receiver "hero" →
          ¬ BecomesScene (typedScript tagSource) "scene" edits receiver := by
  let edits := [insertion 0 "export ", insertion 16 "scene: Phaser.Scene | any"]
  obtain ⟨hby, hnone⟩ : ConvertsBy (typedScript tagSource) .usual [] edits edits tagConverted ∧
      ∀ u ∈ (typedScript tagSource).tree.preorder, u.role = .object →
        u.kind ≠ .identifier ∧ (⟨u.start, u.stop, bytesOf "scene"⟩ : Edit) ∉ edits := by
    decide +kernel
  refine ⟨hby.convert, edits, hby.2.1, fun site t receiver hp hbecomes => ?_⟩
  obtain ⟨l, -, hr⟩ := hp.receiver
  obtain ⟨hname, hedit⟩ := hnone receiver
    (mem_preorder.mpr ((site_contains hp.mem).trans hp.contains_receiver)) (child?_role hr)
  cases hbecomes with
  | already hk => exact hname hk
  | replaced _ he => exact hedit he

end SceneSync.Script
