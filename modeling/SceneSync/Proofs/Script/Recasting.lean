import Mathlib
import SceneSync.Proofs.Script.Publishing
import SceneSync.Proofs.Script.Retelling

/-!
# Recast trees

Two trees, each in a script of its own, that differ at most in some `this`: where one of
them is an object or an argument, the other one has the name of the scene. Such trees
declare the same locals and publish the same names.
-/

namespace SceneSync.Script

open Script.Tree

inductive Recast (s s' : Script) (context : String) : Tree → Tree → Prop
  | scene {t t' : Tree} : t.role = .object ∨ t.role = .plain → t.kind = .thisExpression →
      t.children = [] → t'.role = t.role → t'.kind = .identifier → t'.children = [] →
      s'.textString t' = context → Recast s s' context t t'
  | kept {t t' : Tree} : t'.role = t.role → t'.kind = t.kind →
      (t.children = [] → s'.text t' = s.text t) →
      List.Forall₂ (Recast s s' context) t.children t'.children → Recast s s' context t t'

/-- Names are tokens. -/
def NamesAreTokens (t : Tree) : Prop :=
  ∀ u, Contains t u → u.kind = .identifier ∨ u.kind = .propertyIdentifier → u.children = []

variable {s s' : Script} {context : String} {t t' : Tree}

theorem NamesAreTokens.within {u : Tree} (h : NamesAreTokens t) (hu : Contains t u) :
    NamesAreTokens u := fun v hv => h v (hu.trans hv)

theorem Recast.role (h : Recast s s' context t t') : t'.role = t.role := by
  cases h with
  | scene _ _ _ hrole => exact hrole
  | kept hrole => exact hrole

theorem Recast.children (h : Recast s s' context t t') :
    List.Forall₂ (Recast s s' context) t.children t'.children := by
  cases h with
  | scene _ _ hcs _ _ hcs' =>
    rw [hcs, hcs']
    exact .nil
  | kept _ _ _ hcs => exact hcs

theorem Recast.child? (h : Recast s s' context t t') (r : Role) :
    Option.Rel (Recast s s' context) (t.child? r) (t'.child? r) :=
  rel_find_role (fun _ _ => Recast.role) h.children r

theorem Recast.child?_none {r : Role} (h : Recast s s' context t t') (hc : t.child? r = none) :
    t'.child? r = none :=
  rel_none (hc ▸ h.child? r)

theorem Recast.child?_some {r : Role} {c : Tree} (h : Recast s s' context t t')
    (hc : t.child? r = some c) : ∃ c', t'.child? r = some c' ∧ Recast s s' context c c' :=
  exists_of_rel_some (hc ▸ h.child? r)

/-- Only `this` changes its kind, and only into a name. -/
theorem Recast.kind_iff (h : Recast s s' context t t') {k : Kind} (hname : k ≠ .identifier)
    (hthis : k ≠ .thisExpression) : t'.kind = k ↔ t.kind = k := by
  cases h with
  | scene _ hkind _ _ hkind' =>
    rw [hkind, hkind']
    exact ⟨fun h => absurd h.symm hname, fun h => absurd h.symm hthis⟩
  | kept _ hkind => rw [hkind]

/-- It changes where it is an object or an argument only. -/
theorem Recast.kind_of_role (h : Recast s s' context t t') (hr : t.role ≠ .object)
    (hr' : t.role ≠ .plain) : t'.kind = t.kind := by
  cases h with
  | scene hrole => exact absurd hrole (by simp [hr, hr'])
  | kept _ hkind => exact hkind

theorem Recast.text_of_name (hnames : NamesAreTokens t) (h : Recast s s' context t t')
    (hkind : t.kind = .identifier ∨ t.kind = .propertyIdentifier) : s'.text t' = s.text t := by
  cases h with
  | scene _ hthis =>
    rw [hthis] at hkind
    simp at hkind
  | kept _ _ htext => exact htext (hnames t (.here t) hkind)

theorem Recast.textString_of_name (hnames : NamesAreTokens t) (h : Recast s s' context t t')
    (hkind : t.kind = .identifier ∨ t.kind = .propertyIdentifier) :
    s'.textString t' = s.textString t := by
  rw [textString, textString, h.text_of_name hnames hkind]

mutual
theorem Recast.preorder : ∀ {t t' : Tree}, Recast s s' context t t' →
    List.Forall₂ (fun u u' => Contains t u ∧ Recast s s' context u u') t.preorder t'.preorder
  | .node r k a b cs, .node r' k' a' b' cs', h => by
    refine .cons ⟨.here _, h⟩ ?_
    refine (Recast.preorderAll h.children).imp fun u u' hu => ?_
    obtain ⟨⟨c, hc, hcu⟩, hrel⟩ := hu
    exact ⟨.down rfl hc hcu, hrel⟩

theorem Recast.preorderAll : ∀ {ts ts' : List Tree}, List.Forall₂ (Recast s s' context) ts ts' →
    List.Forall₂ (fun u u' => (∃ c ∈ ts, Contains c u) ∧ Recast s s' context u u')
      (Tree.preorderAll ts) (Tree.preorderAll ts')
  | [], [], _ => .nil
  | t :: ts, t' :: ts', h => by
    obtain ⟨ht, hts⟩ := List.forall₂_cons.mp h
    refine List.rel_append ?_ ?_
    · exact ht.preorder.imp fun u u' hu => ⟨⟨t, by simp, hu.1⟩, hu.2⟩
    · refine (Recast.preorderAll hts).imp fun u u' hu => ?_
      obtain ⟨⟨c, hc, hcu⟩, hrel⟩ := hu
      exact ⟨⟨c, by simp [hc], hcu⟩, hrel⟩
end

/-! ## Locals and assignments -/

theorem Recast.instantiation?_name (hnames : NamesAreTokens t) (h : Recast s s' context t t') :
    (s'.instantiation? t').map (·.name) = (s.instantiation? t).map (·.name) := by
  have hdeclarator := h.kind_iff (k := .variableDeclarator) (by decide) (by decide)
  rw [instantiation?_eq, instantiation?_eq]
  by_cases hk : t.kind = .variableDeclarator
  · rw [if_pos hk, if_pos (hdeclarator.mpr hk)]
    cases hn : t.child? .name with
    | none => simp only [h.child?_none hn, Option.bind_none]
    | some n =>
      obtain ⟨n', hn', hnn⟩ := h.child?_some hn
      cases hv : t.child? .value with
      | none => simp only [hn', h.child?_none hv, Option.bind_some, Option.bind_none]
      | some v =>
        obtain ⟨v', hv', hvv⟩ := h.child?_some hv
        have hrole := child?_role hn
        have hname := hnn.kind_of_role (by simp [hrole]) (by simp [hrole])
        have hnew := hvv.kind_iff (k := .newExpression) (by decide) (by decide)
        simp only [hn', hv', Option.bind_some, hname, hnew]
        by_cases hnv : n.kind = .identifier ∧ v.kind = .newExpression
        · have hnames' := hnames.within (contains_child (child?_mem hn))
          rw [if_pos hnv, if_pos hnv, Option.map_some, Option.map_some,
            hnn.textString_of_name hnames' (.inl hnv.1)]
        · rw [if_neg hnv, if_neg hnv]
  · rw [if_neg hk, if_neg (mt hdeclarator.mp hk)]

/-- What stands for the scene in one tree stands for it in the other. -/
theorem Recast.isScene (hnames : NamesAreTokens t) (h : Recast s s' context t t') :
    s'.isScene context t' = s.isScene context t := by
  rw [Script.isScene, Script.isScene]
  by_cases hk : t.kind = .identifier
  · have htext := h.textString_of_name hnames (.inl hk)
    cases h with
    | scene _ hthis => simp [hk] at hthis
    | kept _ hkind => rw [hkind, htext]
  · cases h with
    | scene _ hthis _ _ hkind _ htext => simp [hthis, hkind, htext]
    | kept _ hkind => rw [hkind, beq_eq_false_iff_ne.mpr hk, Bool.false_and, Bool.false_and]

theorem Recast.publication? (hnames : NamesAreTokens t) (h : Recast s s' context t t') :
    s'.publication? context t' = s.publication? context t := by
  have hassignment := h.kind_iff (k := .assignmentExpression) (by decide) (by decide)
  rw [publication?_eq, publication?_eq]
  simp only [hassignment]
  congr 1
  cases hl : t.child? .left with
  | none => simp only [h.child?_none hl, Option.bind_none]
  | some l =>
    obtain ⟨l', hl', hll⟩ := h.child?_some hl
    cases hr : t.child? .right with
    | none => simp only [hl', h.child?_none hr, Option.bind_none, Option.bind_some]
    | some r =>
      obtain ⟨r', hr', hrr⟩ := h.child?_some hr
      have hlnames := hnames.within (contains_child (child?_mem hl))
      have hrnames := hnames.within (contains_child (child?_mem hr))
      have hrole := child?_role hr
      have hmember := hll.kind_iff (k := .memberExpression) (by decide) (by decide)
      have hname := hrr.kind_of_role (by simp [hrole]) (by simp [hrole])
      simp only [hl', hr', Option.bind_some, hmember, hname]
      by_cases hlr : l.kind = .memberExpression ∧ r.kind = .identifier
      · rw [if_pos hlr, if_pos hlr]
        cases ho : l.child? .object with
        | none => simp only [hll.child?_none ho, Option.bind_none]
        | some a =>
          obtain ⟨a', ho', haa⟩ := hll.child?_some ho
          cases hp : l.child? .property with
          | none => simp only [ho', hll.child?_none hp, Option.bind_none, Option.bind_some]
          | some p =>
            obtain ⟨p', hp', hpp⟩ := hll.child?_some hp
            have hanames := hlnames.within (contains_child (child?_mem ho))
            have hpnames := hlnames.within (contains_child (child?_mem hp))
            have hprole := child?_role hp
            have hproperty := hpp.kind_of_role (by simp [hprole]) (by simp [hprole])
            have hrText := hrr.text_of_name hrnames (.inl hlr.2)
            simp only [ho', hp', Option.bind_some, hproperty, hrText, textString,
              haa.isScene hanames]
            by_cases hpk : p.kind = .propertyIdentifier
            · rw [hpp.text_of_name hpnames (.inr hpk)]
            · simp [hpk]
      · rw [if_neg hlr, if_neg hlr]

/-! ## Bodies -/

theorem Recast.instantiation_names (hnames : NamesAreTokens t) (h : Recast s s' context t t') :
    (s'.instantiations t').map (·.name) = (s.instantiations t).map (·.name) := by
  rw [instantiations, instantiations, List.map_filterMap, List.map_filterMap]
  exact filterMap_eq_of_rel h.preorder fun u u' hu =>
    hu.2.instantiation?_name (hnames.within hu.1)

theorem Recast.publishedNames (hnames : NamesAreTokens t) (h : Recast s s' context t t') :
    s'.publishedNames context t' = s.publishedNames context t := by
  have hassigned := filterMap_eq_of_rel h.preorder fun u u' hu =>
    hu.2.publication? (hnames.within hu.1)
  rw [Script.publishedNames, Script.publishedNames, hassigned, h.instantiation_names hnames]

end SceneSync.Script
