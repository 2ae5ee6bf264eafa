import Mathlib
import SceneSync.Proofs.Script.ConvertedText
import SceneSync.Proofs.Script.ParameterConflicts

/-!
# The functions of a converted tree

In a tree that is converted node by node the functions of the script are found again, and
they are exported, they take the scene, and no `this` in them is the scene any more. There
is nothing left to edit in them.
-/

namespace SceneSync.Script

open Script.Tree

variable {s s' : Script} {o : ConversionOptions} {context : String} {type : Phrase}
  {c : Bool} {site : Site} {t t' u u' list list' : Tree} {ts ts' : List Tree}

/-! ## Where nothing gives way -/

theorem Rebound.same (h : Rebound s s' context ⟨c, false, false⟩ t t') :
    t'.role = t.role ∧ t'.kind = t.kind ∧ (t.children = [] → s'.text t' = s.text t) := by
  cases h with
  | scene hspot => cases hspot
  | kept _ hrole hkind htext => exact ⟨hrole, hkind, htext⟩

theorem Rebound.children (h : Rebound s s' context ⟨c, false, false⟩ t t')
    (hahead : Spot.ahead ⟨c, false, false⟩ t.kind = ⟨c, false, false, false⟩) :
    List.Forall₂ (Rebound s s' context ⟨c, false, false⟩) t.children t'.children := by
  cases h with
  | scene hspot => cases hspot
  | kept _ _ _ _ hcs =>
    rw [hahead, spots_still _, List.forall₂_map_left_iff] at hcs
    exact hcs

theorem Rebound.child? (h : Rebound s s' context ⟨c, false, false⟩ t t')
    (hahead : Spot.ahead ⟨c, false, false⟩ t.kind = ⟨c, false, false, false⟩) (r : Role) :
    Option.Rel (Rebound s s' context ⟨c, false, false⟩) (t.child? r) (t'.child? r) :=
  rel_find_role (fun _ _ hc => hc.same.1) (h.children hahead) r

/-- Patterns bind the same names. -/
theorem Rebound.bindings {t t' : Tree} (ht : Lexical t) (h : Rebound s s' context .inside t t') :
    (bindings t').map s'.textString = (bindings t).map s.textString := by
  obtain ⟨-, hkind, htext⟩ := h.same
  by_cases hahead : Spot.inside.ahead t.kind = ⟨false, false, false, false⟩
  · have hrole (r : Role) : (((t'.child? r).map Script.bindings).getD []).map s'.textString =
        (((t.child? r).map Script.bindings).getD []).map s.textString := by
      have hrel := h.child? hahead r
      cases hc : t.child? r with
      | none =>
        rw [hc] at hrel
        rw [rel_none hrel]
        rfl
      | some u =>
        rw [hc] at hrel
        obtain ⟨u', hu', huu⟩ := exists_of_rel_some hrel
        have := sizeOf_child_lt (child?_mem hc)
        rw [hu']
        exact huu.bindings (ht.within (contains_child (child?_mem hc)))
    have hmembers : (t'.children.flatMap Script.bindings).map s'.textString =
        (t.children.flatMap Script.bindings).map s.textString := by
      rw [List.map_flatMap, List.map_flatMap]
      refine flatMap_eq_of_rel ((List.forall₂_and_left (p := (· ∈ t.children)) _ _).mpr
        ⟨fun _ h => h, h.children hahead⟩) fun u u' hu => ?_
      have := sizeOf_child_lt hu.1
      exact hu.2.bindings (ht.within (contains_child hu.1))
    rw [bindings_eq t, bindings_eq t', hkind]
    split
    · rename_i hname
      have hleaf := ht.names t (mem_preorder.mpr (.here t)) (by tauto)
      rw [List.map_singleton, List.map_singleton, textString, textString, htext hleaf]
    · split
      · exact hrole .pattern
      · split
        · exact hrole .left
        · split
          · exact hrole .value
          · split
            · exact hmembers
            · rfl
  · rw [bindings_eq t, bindings_eq t', hkind]
    revert hahead
    cases t.kind <;> simp [isTypedParameter, Spot.ahead, Spot.inside]
  termination_by sizeOf t

theorem Rebound.binds (ht : Lexical t) (h : Rebound s s' context .inside t t') :
    s'.binds context t' = s.binds context t := by
  have hmap := congrArg (List.any · (· == context)) (h.bindings ht)
  simp only [List.any_map] at hmap
  exact hmap

theorem Rebound.isSceneParameter (ht : Lexical t) (h : Rebound s s' context .inside t t') :
    s'.isSceneParameter context t' = s.isSceneParameter context t := by
  obtain ⟨-, hkind, -⟩ := h.same
  have htarget : Option.Rel (Rebound s s' context .inside) (parameterTarget? t)
      (parameterTarget? t') := by
    rw [parameterTarget?, parameterTarget?, hkind]
    split
    · rename_i htyped
      refine h.child? ?_ .pattern
      revert htyped
      cases t.kind <;> simp [isTypedParameter, Spot.ahead]
    · split
      · rename_i hdefault
        exact h.child? (by simp [beq_iff_eq.mp hdefault, Spot.ahead]) .left
      · exact .some h
  rw [Script.isSceneParameter, Script.isSceneParameter]
  cases hu : parameterTarget? t with
  | none =>
    rw [hu] at htarget
    rw [rel_none htarget]
    rfl
  | some u =>
    rw [hu] at htarget
    obtain ⟨u', hu', huu⟩ := exists_of_rel_some htarget
    obtain ⟨-, hkind, htext⟩ := huu.same
    rw [hu', Option.any_some, Option.any_some, hkind]
    by_cases hname : u.kind = .identifier
    · have hleaf := ht.names u (mem_preorder.mpr (parameterTarget?_contains hu)) (.inl hname)
      rw [textString, textString, htext hleaf]
    · rw [beq_eq_false_iff_ne.mpr hname, Bool.false_and, Bool.false_and]

/-- Outside of the functions the names in an export list are listed still. -/
theorem Rebound.mem_listedIn (hs : s.Grammatical) (hmem : Contains s.tree t)
    (h : Rebound s s' context .outside t t') {name : String} (hname : name ∈ s.listedIn t) :
    name ∈ s'.listedIn t' := by
  refine mem_listedIn_of_rel (fun _ _ h => h.role) (fun _ _ h _ => h.same.2.1)
    (fun _ _ h => h.children rfl) (fun u u' hin hu hk => ?_) h hname
  refine name?_eq_of_rel (hu.child? rfl .name) fun n n' hn hnn => hnn.same.2.2 ?_
  exact (hs.names u (mem_preorder.mpr (hmem.trans hin)) (.inr (.inl hk)) n hn).1

theorem Rebound.siteOf?_none (h : Rebound s s' context .outside t t') (ht : s.siteOf? t = none) :
    s'.siteOf? t' = none := by
  obtain ⟨-, hkind, -⟩ := h.same
  refine siteOf?_none_of_rel (by rw [hkind]) (by rw [hkind]) ?_ ht
  have hrel := rel_exported (fun _ _ h => Rebound.role h) (h.children rfl)
  generalize exported? t = d, exported? t' = d' at hrel
  cases hrel with
  | none => exact .none
  | some hdd => exact .some (congrArg isFunctionKind hdd.same.2.1)

/-! ## The declaration of the scene -/

theorem Bare.binds (h : Bare s context t) : BindsName s context t := by
  cases h with
  | plain h =>
    cases h with
    | name hk htext => exact ⟨t, .name (.inl hk), htext⟩
    | default hk hc hck htext => exact ⟨_, .default (.inl hk) hc (.name (.inl hck)), htext⟩
  | typed hk hc hck htext => exact ⟨_, .typed hk hc (.name (.inl hck)), htext⟩

/-- What is spelled as the declaration of the scene is a parameter that is the scene. -/
theorem Spells.scene {d : Dialect} {gap : List Char}
    (h : Spells s (.scene d context type gap) t) : Bare s context t := by
  have htext {u : Tree} {r : Role} {g : List Char}
      (hu : Spells s (.node r .identifier g [] context.toList) u) : s.textString u = context := by
    rw [textString, hu.text]
    simp [Phrase.text, Phrase.textAll]
  cases hd : d.isTyped with
  | false =>
    rw [Phrase.scene, hd, if_neg Bool.false_ne_true] at h
    exact .plain (.name h.kind (htext h))
  | true =>
    rw [Phrase.scene, hd, if_pos rfl] at h
    obtain ⟨u, us, hu, -, hcs⟩ := List.forall₂_cons_left_iff.mp h.children
    have hpattern : t.child? .pattern = some u := by
      rw [Tree.child?, hcs, List.find?_cons, hu.role]
      rfl
    refine .typed ?_ hpattern hu.kind (htext hu)
    rw [h.kind]
    rfl

/-- There is no `this` in a declaration whose type has none. -/
theorem Spells.scene_settled {d : Dialect} {gap : List Char}
    (h : Spells s (.scene d context type gap) t) (htype : Kind.thisExpression ∉ type.kinds) :
    Settled t := by
  have hkinds : Kind.thisExpression ∉ (Phrase.scene d context type gap).kinds := by
    rw [Phrase.scene]
    split <;> simp [Phrase.kinds, Phrase.kindsAll, htype]
  rintro q u hq hu hthis
  rw [← h.kinds] at hkinds
  refine hkinds (List.mem_map.mpr ⟨u, ?_, hthis⟩)
  exact mem_preorder.mpr (hq.contains.trans (sceneUse?_contains hu))

/-! ## The parameters -/

theorem rebounds {spot : Spot}
    (h : List.Forall₂ (fun t t' => ∃ pos, Spells s' (s.rebound context spot pos t) t') ts ts') :
    List.Forall₂ (Rebound s s' context spot) ts ts' :=
  h.imp fun _ _ ⟨_, h⟩ => h.rebound

/-- A parameter list takes the scene by one more parameter unless the scene is there. -/
theorem listPhrase_cases {pos : Nat} (h : Spells s' (s.listPhrase o type pos list) list') :
    list'.role = list.role ∧ list'.kind = list.kind ∧
      (list.children.any (s.isSceneParameter o.context) = true ∧
        List.Forall₂ (Rebound s s' o.context .inside) list.children list'.children ∨
      list.children.any (s.isSceneParameter o.context) = false ∧ ∃ gap u us,
        list'.children.Perm (u :: us) ∧ Spells s' (.scene s.dialect o.context type gap) u ∧
          List.Forall₂ (Rebound s s' o.context .inside) list.children us) := by
  rw [listPhrase] at h
  cases hany : list.children.any (s.isSceneParameter o.context) with
  | true =>
    rw [if_pos hany] at h
    exact ⟨h.role, h.kind, .inl ⟨rfl, rebounds (spells_inTurn h.children)⟩⟩
  | false =>
    rw [if_neg (by simp [hany])] at h
    obtain ⟨hrole, hkind, gap, u, us, hperm, hu, hus⟩ := h.putScene
    exact ⟨hrole, hkind, .inr ⟨rfl, gap, u, us, hperm, hu, rebounds (spells_inTurn hus)⟩⟩

theorem listPhrase_takes {pos : Nat} (h : Spells s' (s.listPhrase o type pos list) list')
    (hlist : Lexical list) :
    list'.children.any (s'.isSceneParameter o.context) = true := by
  rw [List.any_eq_true]
  obtain ⟨-, -, ⟨hany, hcs⟩ | ⟨-, gap, u, us, hperm, hu, -⟩⟩ := listPhrase_cases h
  · obtain ⟨p, hp, hscene⟩ := List.any_eq_true.mp hany
    obtain ⟨p', hp', hpp⟩ := exists_right_of_mem hcs hp
    exact ⟨p', hp', (hpp.isSceneParameter (hlist.within (contains_child hp))).trans hscene⟩
  · exact ⟨u, hperm.mem_iff.mpr List.mem_cons_self, isSceneParameter_iff_bare.mpr hu.scene⟩

theorem listPhrase_settled {pos : Nat} (h : Spells s' (s.listPhrase o type pos list) list')
    (hkind : list.kind = .formalParameters) (htype : Kind.thisExpression ∉ type.kinds) :
    Settled list' := by
  obtain ⟨-, hkind', hcases⟩ := listPhrase_cases h
  refine settled_of_children (by rw [sceneUse?, hkind', hkind]) fun c hc => ?_
  cases hcases with
  | inl hkept =>
    obtain ⟨p, -, hpc⟩ := exists_left_of_mem hkept.2 hc
    exact hpc.settled rfl
  | inr hput =>
    obtain ⟨-, gap, u, us, hperm, hu, hus⟩ := hput
    cases hperm.mem_iff.mp hc with
    | head => exact hu.scene_settled htype
    | tail _ hc =>
      obtain ⟨p, -, hpc⟩ := exists_left_of_mem hus hc
      exact hpc.settled rfl

/-- Without a conflict one parameter binds the name of the scene, when one did or none. -/
theorem listPhrase_countP {pos : Nat} (h : Spells s' (s.listPhrase o type pos list) list')
    (hlist : Lexical list) (hfree : (∀ p ∈ list.children, ¬ Bare s o.context p) →
      ∀ p ∈ list.children, ¬ BindsName s o.context p)
    (hcount : list.children.countP (s.binds o.context) ≤ 1) :
    list'.children.countP (s'.binds o.context) = 1 := by
  have hkept {us : List Tree}
      (hus : List.Forall₂ (Rebound s s' o.context .inside) list.children us) :
      us.countP (s'.binds o.context) = list.children.countP (s.binds o.context) := by
    refine countP_eq_of_rel ((List.forall₂_and_left (p := (· ∈ list.children)) _ _).mpr
      ⟨fun _ h => h, hus⟩) fun p p' hp => ?_
    exact hp.2.binds (hlist.within (contains_child hp.1))
  obtain ⟨-, -, ⟨hany, hcs⟩ | ⟨hnone, gap, u, us, hperm, hu, hus⟩⟩ := listPhrase_cases h
  · obtain ⟨p, hp, hscene⟩ := List.any_eq_true.mp hany
    have hbinds := binds_iff.mpr (isSceneParameter_iff_bare.mp hscene).binds
    have hpos := List.countP_pos_iff.mpr ⟨p, hp, hbinds⟩
    rw [hkept hcs]
    omega
  · have hbare : ∀ p ∈ list.children, ¬ Bare s o.context p := fun p hp hb =>
      List.any_eq_false.mp hnone p hp (isSceneParameter_iff_bare.mpr hb)
    have hzero : list.children.countP (s.binds o.context) = 0 :=
      List.countP_eq_zero.mpr fun p hp hb => hfree hbare p hp (binds_iff.mp hb)
    rw [hperm.countP_eq, List.countP_cons, hkept hus, hzero, if_pos (binds_iff.mpr hu.scene.binds)]

/-! ## The functions -/

theorem carried_of_spells {pos : Nat} (h : Spells s' (s.functionPhrase o type pos t) t') :
    Carried s s' o type t t' :=
  ⟨t.role, .node h.role h.kind h.text h.children⟩

theorem Carried.kind (h : Carried s s' o type t t') : t'.kind = t.kind := by
  obtain ⟨r, h⟩ := h
  exact h.kind

theorem Carried.children (h : Carried s s' o type t t') :
    FirstApart (·.role == .parameters)
      (fun list list' => ∃ pos, Spells s' (s.listPhrase o type pos list) list')
      (Rebound s s' o.context .inside) t.children t'.children := by
  obtain ⟨r, h⟩ := h
  have hcs : List.Forall₂ (Spells s') (inTurnBut .parameters (s.listPhrase o type)
    (s.rebound o.context .inside) t.start t.children) t'.children := h.children
  exact (spells_inTurnBut hcs).imp (fun _ _ h => h) fun _ _ ⟨_, h⟩ => h.rebound

theorem Carried.parameters (h : Carried s s' o type t t') :
    Option.Rel (fun list list' => ∃ pos, Spells s' (s.listPhrase o type pos list) list')
      (t.child? .parameters) (t'.child? .parameters) :=
  h.children.find (fun _ _ ⟨_, h⟩ => by rw [(listPhrase_cases h).1]) fun _ _ h => by rw [h.role]

theorem Carried.child? (h : Carried s s' o type t t') {r : Role} (hr : r ≠ .parameters) :
    Option.Rel (Rebound s s' o.context .inside) (t.child? r) (t'.child? r) := by
  refine h.children.find_other (fun c hc => ?_) (fun _ _ ⟨_, h⟩ => by rw [(listPhrase_cases h).1])
    fun _ _ h => by rw [h.role]
  rw [beq_iff_eq.mp hc]
  exact beq_eq_false_iff_ne.mpr (Ne.symm hr)

theorem Carried.settled (h : Carried s s' o type t t') (hkind : isFunctionKind t.kind = true)
    (hlists : ∀ c ∈ t.children, c.role = .parameters → c.kind = .formalParameters)
    (htype : Kind.thisExpression ∉ type.kinds) : Settled t' := by
  have huse : sceneUse? t' = none := by
    rw [sceneUse?, h.kind]
    revert hkind
    cases t.kind <;> simp [isFunctionKind]
  refine settled_of_children huse fun c' hc' => ?_
  obtain ⟨c, hc, hrel | ⟨hrole, pos, hlist⟩⟩ := h.children.exists_left hc'
  · exact hrel.settled rfl
  · exact listPhrase_settled hlist (hlists c hc (beq_iff_eq.mp hrole)) htype

theorem Carried.noParameterEdits (h : Carried s s' o type t t') (ht : Lexical t)
    (exported : Bool) : s'.sceneParameterEdits o ⟨t', exported⟩ = .ok [] := by
  have hrel := h.parameters
  rw [sceneParameterEdits, Site.parameters?]
  simp only
  cases hlist : t.child? .parameters with
  | none =>
    rw [hlist] at hrel
    rw [rel_none hrel]
  | some list =>
    rw [hlist] at hrel
    obtain ⟨list', hlist', pos, hspells⟩ := exists_of_rel_some hrel
    have hany := listPhrase_takes hspells (ht.within (contains_child (child?_mem hlist)))
    simp only [hlist', hany, ↓reduceIte]

/-! ## The statements -/

/-- What an export statement exports is found again when it is carried out in its role. -/
theorem exported?_carried {P : Tree → Tree → Prop} {d : Tree}
    (h : FirstApart (·.role == exportedRole t)
      (fun d d' => ∃ pos, Spells s' (s.functionPhrase o type pos d) d') P t.children t'.children)
    (hP : ∀ c c', P c c' → c'.role = c.role) (hd : exported? t = some d) :
    ∃ d', exported? t' = some d' ∧ Carried s s' o type d d' := by
  have hQ : ∀ (r : Role) (c c' : Tree), (∃ pos, Spells s' (s.functionPhrase o type pos c) c') →
      (c'.role == r) = (c.role == r) := fun r c c' ⟨_, hc⟩ => by rw [hc.role]; rfl
  have hfind : Option.Rel (fun d d' => ∃ pos, Spells s' (s.functionPhrase o type pos d) d')
      (t.child? (exportedRole t)) (t'.child? (exportedRole t)) :=
    h.find (hQ _) fun _ _ hc => by rw [hP _ _ hc]
  rw [← exported?_eq, hd] at hfind
  obtain ⟨d', hd', pos, hspells⟩ := exists_of_rel_some hfind
  refine ⟨d', ?_, carried_of_spells hspells⟩
  rw [exportedRole] at hd' h
  rw [exported?]
  cases hdecl : t.child? .declaration with
  | some c =>
    rw [hdecl] at hd'
    rw [show t'.child? .declaration = some d' from hd']
  | none =>
    rw [hdecl] at hd' h
    have hnone : Option.Rel P (t.child? .declaration) (t'.child? .declaration) := by
      refine h.find_other (fun c hc => ?_) (hQ _) fun _ _ hc => by rw [hP _ _ hc]
      rw [beq_iff_eq.mp hc]
      rfl
    rw [hdecl] at hnone
    rw [rel_none hnone]
    exact hd'

/-- The statements of the two scripts, side by side. -/
theorem carriedOut_statements (s : Script) (o : ConversionOptions) (type : Phrase) :
    List.Forall₂ (fun t t' => ∃ pos, Spells (s.carriedOut o type) (s.statementPhrase o type pos t) t')
      s.statements (s.carriedOut o type).statements :=
  spells_inTurn (Phrase.spells_script _ _ _).children

theorem mem_listedNames_carriedOut (hs : s.Grammatical) {name : String}
    (hname : name ∈ s.listedNames) : name ∈ (s.carriedOut o type).listedNames := by
  obtain ⟨t, ht, hname⟩ := List.mem_flatMap.mp hname
  obtain ⟨hsite, -⟩ := siteOf?_of_listed hs ht hname
  obtain ⟨t', ht', pos, hspells⟩ := exists_right_of_mem (s.carriedOut_statements o type) ht
  rw [statementPhrase, hsite] at hspells
  exact List.mem_flatMap.mpr ⟨t', ht', hspells.rebound.mem_listedIn hs (contains_child ht) hname⟩

/-- Every site is an exported one of the converted tree. -/
theorem siteOf?_carriedOut (hs : s.Grammatical) (ht : t ∈ s.statements) {pos : Nat}
    (h : Spells (s.carriedOut o type) (s.statementPhrase o type pos t) t') :
    Option.Rel (fun site site' : Site =>
        Carried s (s.carriedOut o type) o type site.tree site'.tree ∧ site'.exported = true)
      (s.siteOf? t) ((s.carriedOut o type).siteOf? t') := by
  cases hsite : s.siteOf? t with
  | none =>
    rw [statementPhrase, hsite] at h
    rw [h.rebound.siteOf?_none hsite]
    exact .none
  | some site =>
    have hkind := siteOf?_kind hsite
    simp only [statementPhrase, hsite] at h
    cases siteOf?_cases hsite with
    | inr hexport =>
      obtain ⟨hexport, hd, -, -⟩ := hexport
      rw [if_pos (by simp [hexport])] at h
      obtain ⟨d', hd', hcarried⟩ :=
        exported?_carried (spells_inTurnBut h.children) (fun _ _ hc => hc.choose_spec.rebound.role) hd
      rw [siteOf?_of_export (h.kind.trans hexport) hd' (by rw [hcarried.kind, hkind])]
      exact .some ⟨hcarried, rfl⟩
    | inl hdeclared =>
      obtain ⟨hdeclared, hstatement, rfl⟩ := hdeclared
      rw [if_neg (by simp [hstatement])] at h
      split at h
      · rename_i hlisted
        have hcarried := carried_of_spells h
        have hname : (s.carriedOut o type).name? t' = s.name? t := by
          refine name?_eq_of_rel (hcarried.child? (by decide)) fun n n' hn hnn => hnn.same.2.2 ?_
          exact (hs.names t (mem_preorder.mpr (contains_child ht)) (.inl hkind) n hn).1
        rw [siteOf?_listed (by rw [h.kind]; exact hdeclared) hname hlisted
          fun _ => mem_listedNames_carriedOut hs]
        exact .some ⟨hcarried, rfl⟩
      · obtain ⟨d', ds, hd', -, hcs⟩ := List.forall₂_cons_left_iff.mp h.children
        have hcarried : Carried s (s.carriedOut o type) o type t d' :=
          ⟨.declaration, spells_withGap.mp hd'⟩
        have hexported : exported? t' = some d' := by
          rw [exported?, Tree.child?, hcs, List.find?_cons, hd'.role]
          rfl
        rw [siteOf?_of_export h.kind hexported (by rw [hcarried.kind, hkind])]
        exact .some ⟨hcarried, rfl⟩

/-- The sites of the two scripts, side by side. -/
theorem carriedOut_sites (o : ConversionOptions) (type : Phrase) (hs : s.Grammatical) :
    List.Forall₂ (fun site site' : Site =>
        Carried s (s.carriedOut o type) o type site.tree site'.tree ∧ site'.exported = true)
      s.sites (s.carriedOut o type).sites := by
  have hstatements := (List.forall₂_and_left (p := (· ∈ s.statements)) _ _).mpr
    ⟨fun _ h => h, s.carriedOut_statements o type⟩
  refine List.rel_filterMap (fun t t' h => ?_) hstatements
  obtain ⟨ht, pos, hspells⟩ := h
  exact siteOf?_carriedOut hs ht hspells

/-- When the edits of the functions are carried out on the tree, it spells what they make
of the text; and the same functions are found in it again, all of them exported, and none of
them has an edit left. One parameter of each binds the name of the scene, where one at most
did before. -/
theorem nothing_left_to_edit (s : Script) (o : ConversionOptions) (type : Phrase)
    (hs : s.Grammatical) (hlexical : Lexical s.tree) (htype : Kind.thisExpression ∉ type.kinds)
    {edits : List Edit} (hedits : s.allSiteEdits o = .ok edits) :
    (s.Regular → s.SpellsType o type →
      Text.encode (s.carriedOut o type).source = s.edited edits) ∧
    List.Forall₂ (fun site site' : Site =>
        Carried s (s.carriedOut o type) o type site.tree site'.tree ∧ site'.exported = true ∧
        (s.carriedOut o type).sceneParameterEdits o site' = .ok [] ∧
        sceneUseEdits o site' = [] ∧
        ∀ list ∈ site.parameters?, ∃ list' ∈ site'.parameters?,
          list.children.countP (s.binds o.context) ≤ 1 →
            list'.children.countP ((s.carriedOut o type).binds o.context) = 1)
      s.sites (s.carriedOut o type).sites := by
  refine ⟨fun hregular hspells => carriedOut_source hregular hspells hedits, ?_⟩
  have hsites := (List.forall₂_and_left (p := (· ∈ s.sites)) _ _).mpr
    ⟨fun _ h => h, carriedOut_sites o type hs⟩
  refine hsites.imp fun site site' h => ?_
  obtain ⟨hsite, hcarried, hexported⟩ := h
  have hin := site_contains hsite
  have hsettled : Settled site'.tree := by
    obtain ⟨t, -, ht⟩ := mem_sites hsite
    exact hcarried.settled (siteOf?_kind ht) (hs.lists site hsite) htype
  refine ⟨hcarried, hexported, hcarried.noParameterEdits (hlexical.within hin) site'.exported,
    ?_, fun list hlist => ?_⟩
  · rw [sceneUseEdits, sceneUses_of_settled hsettled]
    rfl
  · have hrel := hcarried.parameters
    rw [show site.tree.child? .parameters = some list from hlist] at hrel
    obtain ⟨list', hlist', pos, hspells⟩ := exists_of_rel_some hrel
    have hlistIn := hin.trans (contains_child (child?_mem hlist))
    have hconflict := siteEdits_ok_iff.mp (siteEdits_ok hedits hsite)
    refine ⟨list', hlist', listPhrase_countP hspells (hlexical.within hlistIn) ?_⟩
    intro hbare p hp hbinds
    exact hconflict ⟨list, hlist, hbare, p, hp, hbinds⟩

/-- The type of the scene in a usual conversion. -/
def usualType : Phrase := .node .plain .declaredType [] [] ": Phaser.Scene | any".toList

/-- A function that is not exported, and one with a receiver that a list exports. -/
def receiverSource : String :=
  "function a() { this.x; }\nfunction b(this: Scene) {}\nexport { b };\n"

def receiverConverted : Script := (typedScript receiverSource).carriedOut .usual usualType

set_option maxRecDepth 100000 in
theorem nothing_left_to_edit_receiver :
    receiverConverted.source = ("export function a(scene: Phaser.Scene | any) { scene.x; }\n" ++
      "function b(this: Scene, scene: Phaser.Scene | any) {}\n" ++
      "export { b };\n").toList ∧
    (typedScript receiverSource).edited [insertion 0 "export ",
      insertion 11 "scene: Phaser.Scene | any", ⟨15, 19, bytesOf "scene"⟩,
      insertion 47 ", scene: Phaser.Scene | any"] = Text.encode receiverConverted.source ∧
    receiverConverted.sites.length = 2 ∧
    ∀ site' ∈ receiverConverted.sites, site'.exported = true ∧
      receiverConverted.sceneParameterEdits .usual site' = .ok [] ∧
      sceneUseEdits .usual site' = [] ∧
      ∃ list' ∈ site'.parameters?, list'.children.countP (receiverConverted.binds "scene") = 1 := by
  obtain ⟨hgrammatical, hlexical, htype, hedits, hregular, hspells, hsource, hlength, hcount⟩ :
      (typedScript receiverSource).Grammatical ∧ Lexical (typedScript receiverSource).tree ∧
      Kind.thisExpression ∉ usualType.kinds ∧
      (typedScript receiverSource).allSiteEdits .usual = .ok [insertion 0 "export ",
        insertion 11 "scene: Phaser.Scene | any", ⟨15, 19, bytesOf "scene"⟩,
        insertion 47 ", scene: Phaser.Scene | any"] ∧
      (typedScript receiverSource).Regular ∧
      (typedScript receiverSource).SpellsType .usual usualType ∧
      receiverConverted.source = ("export function a(scene: Phaser.Scene | any) { scene.x; }\n" ++
        "function b(this: Scene, scene: Phaser.Scene | any) {}\n" ++
        "export { b };\n").toList ∧
      (typedScript receiverSource).sites.length = 2 ∧
      ∀ site ∈ (typedScript receiverSource).sites, ∃ list ∈ site.parameters?,
        list.children.countP ((typedScript receiverSource).binds "scene") ≤ 1 := by
    decide +kernel
  obtain ⟨htext, hsites⟩ := nothing_left_to_edit (typedScript receiverSource) .usual usualType
    hgrammatical hlexical htype hedits
  refine ⟨hsource, (htext hregular hspells).symm, hsites.length_eq.symm.trans hlength,
    fun site' hsite' => ?_⟩
  have hmembers := (List.forall₂_and_left (p := (· ∈ (typedScript receiverSource).sites)) _ _).mpr
    ⟨fun _ h => h, hsites⟩
  obtain ⟨site, -, hsite, -, hexported, hparameters, huses, hlists⟩ :=
    exists_left_of_mem hmembers hsite'
  obtain ⟨list, hlist, hle⟩ := hcount site hsite
  obtain ⟨list', hlist', hone⟩ := hlists list hlist
  exact ⟨hexported, hparameters, huses, list', hlist', hone hle⟩

end SceneSync.Script
