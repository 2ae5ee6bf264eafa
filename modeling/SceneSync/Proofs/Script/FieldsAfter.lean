import Mathlib
import SceneSync.Proofs.Script.Recasting
import SceneSync.Proofs.Script.SecondConversion

/-!
# The fields of a converted script

A converted script publishes the locals that its source publishes. Their types are
read off the text, and there a type that hung on `this` hangs on the scene.
-/

namespace SceneSync.Script

open Script.Tree

/-- Whether a node is a member path in the converted text, where a `this` that was the
scene is a name. -/
def isPathAfter (s : Script) : Tree → Bool
  | .node _ .identifier _ _ _ => true
  | .node r .thisExpression a b cs => s.isReplaced (.node r .thisExpression a b cs)
  | .node _ .memberExpression _ _ [object, property] =>
    property.kind == .propertyIdentifier && s.isPathAfter object
  | _ => false

/-- The type that a `new` expression constructs in the converted text. -/
def constructedTypeAfter (s : Script) (o : ConversionOptions) (t : Tree) : String :=
  match t.child? .callee with
  | some c =>
    if s.isPathAfter c then
      let arguments := match t.child? .typeArguments with
        | some ts => s.textAfter o ts
        | none => []
      String.ofList (Text.squeeze (s.textAfter o c) ++ arguments)
    else anyType
  | none => anyType

/-- A local initialised by `new`, with the type that it has in the converted text. -/
def instantiationAfter? (s : Script) (o : ConversionOptions) (t : Tree) : Option Instantiation := do
  let i ← s.instantiation? t
  let v ← t.child? .value
  return { i with type := s.constructedTypeAfter o v }

def publicationsAfter (s : Script) (o : ConversionOptions) (body : Tree) : List Publication :=
  let records := body.preorder.filterMap (s.instantiationAfter? o)
  (s.publishedNames o.context body).map fun n => ⟨n, typesOf records n⟩

def allPublicationsAfter (s : Script) (o : ConversionOptions) : List Publication :=
  let bodies := s.sites.filterMap Site.body?
  (bodies.flatMap (s.publicationsAfter o)).foldl addPublication []

/-- The fields that a second conversion finds. -/
def fieldsAfter (s : Script) (o : ConversionOptions) (members : List Field) : List Field :=
  (fieldsOf (s.allPublicationsAfter o) members).1

variable {s s' : Script} {o : ConversionOptions} {t t' : Tree}

/-! ## Types -/

/-- A node that is no `this` keeps its kind and its text. -/
theorem Retold.kept (h : Retold s s' o t t') (hkind : t.kind ≠ .thisExpression) :
    t'.kind = t.kind ∧ s'.text t' = s.textAfter o t := by
  rcases h.cases with ⟨hr, -⟩ | ⟨-, hk, htext, -⟩
  · exact absurd (isReplaced_kind hr) hkind
  · exact ⟨hk, htext⟩

theorem Retold.isMemberPath (h : Retold s s' o t t') : isMemberPath t' = s.isPathAfter t := by
  fun_induction Script.isPathAfter s t generalizing t' with
  | case1 r a b cs =>
    have hkind : t'.kind = .identifier := (h.kept (by simp [Tree.kind])).1
    obtain ⟨r', k', a', b', cs'⟩ := t'
    obtain rfl : k' = .identifier := hkind
    rw [Script.isMemberPath]
  | case2 r a b cs =>
    rcases h.cases with ⟨hr, -, -, hkind, -⟩ | ⟨hr, hkind, -⟩
    · obtain ⟨r', k', a', b', cs'⟩ := t'
      obtain rfl : k' = .identifier := hkind
      rw [Script.isMemberPath, hr]
    · obtain ⟨r', k', a', b', cs'⟩ := t'
      obtain rfl : k' = .thisExpression := hkind
      simp [Script.isMemberPath, hr]
  | case3 r a b object property ih =>
    have hkind : t'.kind = .memberExpression := (h.kept (by simp [Tree.kind])).1
    have hcs := h.children
    obtain ⟨r', k', a', b', cs'⟩ := t'
    obtain rfl : k' = .memberExpression := hkind
    cases hcs with
    | cons ho hcs =>
      cases hcs with
      | @cons _ property' _ _ hp hcs =>
        cases hcs
        have hproperty := hp.kind_iff (k := .propertyIdentifier) (by decide) (by decide)
        rw [Script.isMemberPath, ih ho, Bool.eq_iff_iff]
        simp [hproperty]
  | case4 t hname hthis hmember =>
    obtain ⟨r, k, a, b, cs⟩ := t
    have hk : k ≠ .thisExpression := by
      rintro rfl
      exact hthis _ _ _ _ rfl
    have hkind : t'.kind = k := (h.kept hk).1
    have hcs := h.children
    obtain ⟨r', k', a', b', cs'⟩ := t'
    obtain rfl : k' = k := hkind
    by_contra hpath
    rw [Bool.not_eq_false, Script.isMemberPath.eq_def] at hpath
    split at hpath
    · rename_i heq
      cases heq
      exact hname _ _ _ _ rfl
    · rename_i heq
      cases heq
      cases hcs with
      | cons ho hcs =>
        cases hcs with
        | cons hp hcs =>
          cases hcs
          exact hmember _ _ _ _ _ rfl
    · cases hpath

/-- A child in a role that `this` does not play as the scene is no such `this`. -/
theorem child?_not_replaced (hs : s.Grammatical) {r : Role} (hr : r ≠ .object ∧ r ≠ .plain)
    {c : Tree} (hc : t.child? r = some c) : s.isReplaced c = false := by
  by_contra hreplaced
  rw [Bool.not_eq_false] at hreplaced
  have hrole := replaced_role hs hreplaced
  rw [child?_role hc] at hrole
  exact hrole.elim hr.1 hr.2

theorem Retold.text_of_child (hs : s.Grammatical) {r : Role} (hr : r ≠ .object ∧ r ≠ .plain)
    {c c' : Tree} (hc : t.child? r = some c) (h : Retold s s' o c c') :
    c'.kind = c.kind ∧ s'.text c' = s.textAfter o c := by
  rcases h.cases with ⟨hreplaced, -⟩ | ⟨-, hkind, htext, -⟩
  · rw [child?_not_replaced hs hr hc] at hreplaced
    cases hreplaced
  · exact ⟨hkind, htext⟩

/-- The type that a retold `new` expression constructs. -/
theorem Retold.constructedType (hs : s.Grammatical) (h : Retold s s' o t t') :
    s'.constructedType t' = s.constructedTypeAfter o t := by
  rw [Script.constructedType, Script.constructedTypeAfter]
  cases hc : t.child? .callee with
  | none => rw [h.child?_none hc]
  | some c =>
    obtain ⟨c', hc', hcc⟩ := h.child?_some hc
    simp only [hc', hcc.isMemberPath, (hcc.text_of_child hs (by decide) hc).2]
    cases ha : t.child? .typeArguments with
    | none => simp only [h.child?_none ha]
    | some ts =>
      obtain ⟨ts', ha', htt⟩ := h.child?_some ha
      simp only [ha', (htt.text_of_child hs (by decide) ha).2]

theorem Grammatical.namesAreTokens (hs : s.Grammatical) (hmem : Contains s.tree t) :
    NamesAreTokens t := fun u hu => hs.identifiers u (mem_preorder.mpr (hmem.trans hu))

/-- A retold tree is the tree that it comes from with names for some `this`. -/
theorem Retold.recast (hs : s.Grammatical) {t t' : Tree} (hmem : Contains s.tree t)
    (h : Retold s s' o t t') : Recast s s' o.context t t' := by
  rcases h.cases with ⟨hr, hcs, hcs', hkind, htext⟩ | ⟨hr, hkind, htext, hcs⟩
  · exact .scene (replaced_role hs hr) (isReplaced_kind hr) hcs h.role hkind hcs' htext
  · refine .kept h.role hkind (fun hleaf => ?_) ?_
    · rw [htext, textAfter_of_noneReplaced]
      intro u hu
      rwa [← leaf_contains hleaf (mem_preorder.mp hu)]
    · have hmembers := (List.forall₂_and_left (p := (· ∈ t.children)) _ _).mpr ⟨fun _ h => h, hcs⟩
      refine hmembers.imp fun c c' hc => ?_
      have := sizeOf_child_lt hc.1
      exact hc.2.recast hs (hmem.trans (contains_child hc.1))
  termination_by sizeOf t

/-! ## Locals and assignments -/

/-- An instantiation of the source and the one found for it in the converted text, which
may start at another byte. -/
def SameLocal (i i' : Instantiation) : Prop := i'.name = i.name ∧ i'.type = i.type

/-- The locals of a retold declarator. -/
theorem Retold.rel_instantiation (hs : s.Grammatical) (hmem : Contains s.tree t)
    (h : Retold s s' o t t') :
    Option.Rel SameLocal (s.instantiationAfter? o t) (s'.instantiation? t') := by
  have hdeclarator := h.kind_iff (k := .variableDeclarator) (by decide) (by decide)
  rw [instantiationAfter?, instantiation?_eq, instantiation?_eq]
  by_cases hk : t.kind = .variableDeclarator
  · rw [if_pos hk, if_pos (hdeclarator.mpr hk)]
    cases hn : t.child? .name with
    | none =>
      rw [h.child?_none hn]
      exact .none
    | some n =>
      obtain ⟨n', hn', hnn⟩ := h.child?_some hn
      cases hv : t.child? .value with
      | none =>
        simp only [hn', h.child?_none hv, Option.bind_some, Option.bind_none]
        exact .none
      | some v =>
        obtain ⟨v', hv', hvv⟩ := h.child?_some hv
        have hname := (hnn.text_of_child hs (by decide) hn).1
        have hnew := hvv.kind_iff (k := .newExpression) (by decide) (by decide)
        simp only [hn', hv', Option.bind_some, hname, hnew]
        by_cases hnv : n.kind = .identifier ∧ v.kind = .newExpression
        · rw [if_pos hnv, if_pos hnv]
          refine .some ⟨?_, hvv.constructedType hs⟩
          have hnMem := hmem.trans (contains_child (child?_mem hn))
          exact (hnn.recast hs hnMem).textString_of_name (hs.namesAreTokens hnMem) (.inl hnv.1)
        · rw [if_neg hnv, if_neg hnv]
          exact .none
  · rw [if_neg hk, if_neg (mt hdeclarator.mp hk)]
    exact .none

/-! ## Bodies -/

theorem rel_preorder (hmem : Contains s.tree t) (h : Retold s s' o t t') :
    List.Forall₂ (fun u u' => Contains s.tree u ∧ Retold s s' o u u') t.preorder t'.preorder :=
  (List.forall₂_and_left _ _).mpr
    ⟨fun _ hu => hmem.trans (mem_preorder.mp hu), h.preorder⟩

theorem Retold.rel_instantiations (hs : s.Grammatical) (hmem : Contains s.tree t)
    (h : Retold s s' o t t') :
    List.Forall₂ SameLocal (t.preorder.filterMap (s.instantiationAfter? o))
      (s'.instantiations t') :=
  List.rel_filterMap (fun _ _ hu => hu.2.rel_instantiation hs hu.1) (rel_preorder hmem h)

theorem SameLocal.typesOf {is is' : List Instantiation} (h : List.Forall₂ SameLocal is is')
    (name : String) : typesOf is' name = Script.typesOf is name := by
  rw [Script.typesOf, Script.typesOf]
  congr 1
  induction h with
  | nil => rfl
  | @cons i i' _ _ hi _ ih =>
    rw [List.filter_cons, List.filter_cons, hi.1]
    split
    · rw [List.map_cons, List.map_cons, hi.2, ih]
    · exact ih

theorem Retold.publications (hs : s.Grammatical) (hmem : Contains s.tree t)
    (h : Retold s s' o t t') :
    s'.publications o.context t' = s.publicationsAfter o t := by
  rw [Script.publications, publicationsAfter, (h.recast hs hmem).publishedNames (hs.namesAreTokens hmem)]
  refine List.map_congr_left fun n _ => ?_
  rw [SameLocal.typesOf (h.rel_instantiations hs hmem)]

/-- What a converted script publishes. -/
theorem allPublications_eq (hs : s.Grammatical) {fields : List Field}
    (hback : ReadsBack s s' o fields) :
    s'.allPublications o.context = s.allPublicationsAfter o := by
  have hsites := (List.forall₂_and_left (p := fun a : Site => Contains s.tree a.tree) _ _).mpr
    ⟨fun _ h => site_contains h, rel_sites hs hback⟩
  rw [allPublications, allPublicationsAfter]
  congr 1
  generalize s.sites = sites, s'.sites = sites' at hsites
  induction hsites with
  | nil => rfl
  | @cons site site' sites sites' hsite _ ih =>
    obtain ⟨hmem, hrel, -⟩ := hsite
    have hbody := hrel.rel_child (r := .body) (by decide)
    rw [List.filterMap_cons, List.filterMap_cons, Site.body?, Site.body?]
    cases hb : site.tree.child? .body with
    | none =>
      rw [hb] at hbody
      rw [rel_none hbody]
      exact ih
    | some body =>
      rw [hb] at hbody
      obtain ⟨body', hb', hbb⟩ := exists_of_rel_some hbody
      rw [hb']
      simp only [List.flatMap_cons]
      rw [ih, hbb.publications hs (hmem.trans (contains_child (child?_mem hb)))]

/-! ## The fields -/

theorem fieldsOf_second (hs : s.Grammatical) {fields members : List Field}
    (hback : ReadsBack s s' o fields) :
    (fieldsOf (s'.allPublications o.context) members).1 = s.fieldsAfter o members := by
  rw [allPublications_eq hs hback, fieldsAfter]

theorem any_name_eq {α : Type} {name : α → String} {known known' : List α}
    (h : known'.map name = known.map name) (n : String) :
    known'.any (name · == n) = known.any (name · == n) := by
  have hmap (xs : List α) : xs.any (name · == n) = (xs.map name).any (· == n) := by
    rw [List.any_map]
    rfl
  rw [hmap, hmap, h]

/-- The names of the publications do not depend on their types. -/
theorem addPublication_names {known known' : List Publication} {p p' : Publication}
    (hknown : known'.map (·.name) = known.map (·.name)) (hp : p'.name = p.name) :
    (addPublication known' p').map (·.name) = (addPublication known p).map (·.name) := by
  rw [addPublication, addPublication, hp, any_name_eq hknown]
  split
  · rw [← hp, joined_names, hp, joined_names, hknown]
  · rw [List.map_append, List.map_append, hknown, List.map_singleton, List.map_singleton, hp]

theorem foldl_addPublication_names {ps ps' known known' : List Publication}
    (hknown : known'.map (·.name) = known.map (·.name))
    (hps : ps'.map (·.name) = ps.map (·.name)) :
    (ps'.foldl addPublication known').map (·.name) =
      (ps.foldl addPublication known).map (·.name) := by
  induction ps generalizing ps' known known' with
  | nil =>
    obtain rfl := List.map_eq_nil_iff.mp hps
    exact hknown
  | cons p ps ih =>
    obtain ⟨p', ps', rfl, hp, hps⟩ := List.map_eq_cons_iff.mp hps
    rw [List.foldl_cons, List.foldl_cons]
    exact ih (addPublication_names hknown hp) hps

theorem addMembers_names {fields fields' : List Field}
    (h : fields'.map (·.name) = fields.map (·.name)) (members : List Field) :
    (addMembers fields' members).1.map (·.name) = (addMembers fields members).1.map (·.name) := by
  induction members generalizing fields fields' with
  | nil => exact h
  | cons m ms ih =>
    rw [addMembers, addMembers, any_name_eq h]
    split
    · exact ih h
    · refine ih ?_
      rw [List.map_append, List.map_append, h]

/-- A second conversion declares the same names. -/
theorem fieldsAfter_names (s : Script) (o : ConversionOptions) (members : List Field) :
    (s.fieldsAfter o members).map (·.name) =
      (fieldsOf (s.allPublications o.context) members).1.map (·.name) := by
  have hpublished : (s.allPublicationsAfter o).map (·.name) =
      (s.allPublications o.context).map (·.name) := by
    refine foldl_addPublication_names rfl ?_
    rw [List.map_flatMap, List.map_flatMap]
    congr 1
    funext body
    simp [publicationsAfter, publications]
  refine addMembers_names ?_ members
  rw [List.map_map, List.map_map]
  exact hpublished

/-! ## Types without the scene -/

/-- Whether the type that a `new` expression constructs hangs on the scene. -/
def typeUsesScene (s : Script) (t : Tree) : Bool :=
  t.children.any fun c => (c.role == .callee || c.role == .typeArguments) &&
    c.preorder.any s.isReplaced

theorem isPathAfter_of_noneReplaced (h : ∀ u ∈ t.preorder, s.isReplaced u = false) :
    s.isPathAfter t = isMemberPath t := by
  fun_induction Script.isPathAfter s t with
  | case1 r a b cs => rw [isMemberPath]
  | case2 r a b cs =>
    simp only [isMemberPath]
    exact h _ (mem_preorder.mpr (.here _))
  | case3 r a b object property ih =>
    rw [isMemberPath, ih fun u hu => h u ?_]
    exact mem_preorder.mpr ((contains_child (by simp [Tree.children])).trans (mem_preorder.mp hu))
  | case4 t hname hthis hmember =>
    rw [isMemberPath.eq_def]
    split
    · exact absurd rfl (hname _ _ _ _)
    · exact absurd rfl (hmember _ _ _ _ _)
    · rfl

theorem noneReplaced_of_typeUsesScene (h : s.typeUsesScene t = false) {r : Role}
    (hr : r = .callee ∨ r = .typeArguments) {c : Tree} (hc : t.child? r = some c) :
    ∀ u ∈ c.preorder, s.isReplaced u = false := by
  rw [typeUsesScene, List.any_eq_false] at h
  have hnone := h c (child?_mem hc)
  rw [child?_role hc] at hnone
  intro u hu
  by_contra hreplaced
  rw [Bool.not_eq_false] at hreplaced
  refine hnone ?_
  rw [Bool.and_eq_true, List.any_eq_true]
  exact ⟨by rcases hr with rfl | rfl <;> rfl, u, hu, hreplaced⟩

theorem constructedTypeAfter_of_typeUsesScene (h : s.typeUsesScene t = false) :
    s.constructedTypeAfter o t = s.constructedType t := by
  rw [constructedTypeAfter, constructedType]
  cases hc : t.child? .callee with
  | none => rfl
  | some c =>
    have hcallee := noneReplaced_of_typeUsesScene h (.inl rfl) hc
    simp only [isPathAfter_of_noneReplaced hcallee, textAfter_of_noneReplaced hcallee]
    cases ha : t.child? .typeArguments with
    | none => rfl
    | some ts =>
      simp only [textAfter_of_noneReplaced (noneReplaced_of_typeUsesScene h (.inr rfl) ha)]

theorem instantiationAfter?_eq (hmem : Contains s.tree t)
    (hnone : ∀ u ∈ s.tree.preorder, u.kind = .newExpression → s.typeUsesScene u = false) :
    s.instantiationAfter? o t = s.instantiation? t := by
  rw [instantiationAfter?, instantiation?_eq]
  by_cases hk : t.kind = .variableDeclarator
  · cases hn : t.child? .name with
    | none => simp [hk]
    | some n =>
      cases hv : t.child? .value with
      | none => simp [hk]
      | some v =>
        by_cases hnv : n.kind = .identifier ∧ v.kind = .newExpression
        · have hvMem := mem_preorder.mpr (hmem.trans (contains_child (child?_mem hv)))
          simp [hk, hnv, constructedTypeAfter_of_typeUsesScene (hnone v hvMem hnv.2)]
        · simp [hk, hnv]
  · simp [hk]

/-- Where no constructed type hangs on the scene, a second conversion declares the same
fields. -/
theorem fieldsAfter_eq
    (hnone : ∀ u ∈ s.tree.preorder, u.kind = .newExpression → s.typeUsesScene u = false)
    (members : List Field) :
    s.fieldsAfter o members = (fieldsOf (s.allPublications o.context) members).1 := by
  have hbodies : ∀ body ∈ s.sites.filterMap Site.body?,
      s.publicationsAfter o body = s.publications o.context body := by
    intro body hbody
    obtain ⟨site, hsite, hb⟩ := List.mem_filterMap.mp hbody
    have hmem := (site_contains hsite).trans (contains_child (child?_mem hb))
    rw [publicationsAfter, publications, instantiations]
    rw [List.filterMap_congr fun u hu =>
      instantiationAfter?_eq (hmem.trans (mem_preorder.mp hu)) hnone]
  rw [fieldsAfter, allPublicationsAfter, allPublications]
  congr 3
  simp only [List.flatMap]
  rw [List.map_congr_left hbodies]

end SceneSync.Script
