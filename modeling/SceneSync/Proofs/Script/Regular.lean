import Mathlib
import SceneSync.Proofs.Script.Nesting
import SceneSync.Proofs.Text.Encoding
import SceneSync.Script.Conversion

/-!
# Regular scripts

What a grammar of scripts promises of its trees, as far as a conversion leans on
it: nested spans between character boundaries, and the shape of a few nodes.
-/

namespace SceneSync.Script

open Script.Tree

/-- A parameter list opens with the token `(` of one byte, closes with another of one,
and has the parameters between them. A plain script has plain parameters. -/
structure RegularList (s : Script) (list : Tree) : Prop where
  kind : list.kind = .formalParameters
  opened : (Text.encode s.source)[list.start]? = some 40
  closed : list.start + 2 ≤ list.stop
  between : Ordered (list.start + 1) (list.stop - 1) list.children
  plain : s.dialect = .plain → ∀ p ∈ list.children, isTypedParameter p.kind = false

structure Regular (s : Script) : Prop where
  nested : s.tree.WellNested
  boundaries : ∀ t ∈ s.tree.preorder,
    Text.Boundary s.source t.start ∧ Text.Boundary s.source t.stop
  /-- `this` is a token -/
  tokens : ∀ t ∈ s.tree.preorder, t.kind = .thisExpression → t.children = [] ∧ t.start < t.stop
  /-- a function has at least its keyword -/
  functions : ∀ site ∈ s.sites, site.tree.start < site.tree.stop
  lists : ∀ site ∈ s.sites, ∀ list ∈ site.parameters?, s.RegularList list

theorem regularList_iff {s : Script} {list : Tree} : s.RegularList list ↔
    list.kind = .formalParameters ∧ (Text.encode s.source)[list.start]? = some 40 ∧
      list.start + 2 ≤ list.stop ∧ Ordered (list.start + 1) (list.stop - 1) list.children ∧
      (s.dialect = .plain → ∀ p ∈ list.children, isTypedParameter p.kind = false) :=
  ⟨fun ⟨h1, h2, h3, h4, h5⟩ => ⟨h1, h2, h3, h4, h5⟩,
    fun ⟨h1, h2, h3, h4, h5⟩ => ⟨h1, h2, h3, h4, h5⟩⟩

theorem regular_iff {s : Script} : s.Regular ↔
    s.tree.WellNested ∧
      (∀ t ∈ s.tree.preorder, Text.Boundary s.source t.start ∧ Text.Boundary s.source t.stop) ∧
      (∀ t ∈ s.tree.preorder, t.kind = .thisExpression → t.children = [] ∧ t.start < t.stop) ∧
      (∀ site ∈ s.sites, site.tree.start < site.tree.stop) ∧
      ∀ site ∈ s.sites, ∀ list ∈ site.parameters?, s.RegularList list :=
  ⟨fun ⟨h1, h2, h3, h4, h5⟩ => ⟨h1, h2, h3, h4, h5⟩,
    fun ⟨h1, h2, h3, h4, h5⟩ => ⟨h1, h2, h3, h4, h5⟩⟩

instance (s : Script) (list : Tree) : Decidable (s.RegularList list) :=
  decidable_of_iff _ regularList_iff.symm

instance (s : Script) : Decidable s.Regular := decidable_of_iff _ regular_iff.symm

/-! ## Sites -/

/-- A site is a declared function at the top, or what an export statement exports. -/
theorem siteOf?_cases {s : Script} {t : Tree} {site : Site} (h : s.siteOf? t = some site) :
    isDeclaredFunction t.kind = true ∧ t.kind ≠ .exportStatement ∧
      site = ⟨t, (s.name? t).any s.listedNames.contains⟩ ∨
    t.kind = .exportStatement ∧ exported? t = some site.tree ∧
      isFunctionKind site.tree.kind = true ∧ site.exported = true := by
  rw [siteOf?] at h
  split at h
  · rename_i hdeclared
    refine .inl ⟨hdeclared, ?_, (Option.some.inj h).symm⟩
    intro hk
    rw [hk] at hdeclared
    cases hdeclared
  · split at h
    · rename_i hk
      cases hd : exported? t with
      | none => simp [hd] at h
      | some d =>
        rw [hd] at h
        simp only at h
        split at h
        · obtain rfl := Option.some.inj h
          exact .inr ⟨beq_iff_eq.mp hk, rfl, ‹_›, rfl⟩
        · cases h
    · cases h

theorem exported?_mem {t d : Tree} (h : exported? t = some d) : d ∈ t.children := by
  rw [exported?] at h
  cases hc : t.child? .declaration with
  | none => exact child?_mem (by simpa [hc] using h)
  | some d' =>
    obtain rfl : d' = d := by simpa [hc] using h
    exact child?_mem hc

theorem siteOf?_contains {s : Script} {t : Tree} {site : Site} (h : s.siteOf? t = some site) :
    Contains t site.tree := by
  cases siteOf?_cases h with
  | inl h =>
    obtain ⟨-, -, rfl⟩ := h
    exact .here t
  | inr h => exact contains_child (exported?_mem h.2.1)

/-- An alias of the scene's fields is no site. -/
theorem siteOf?_of_alias {s : Script} {t : Tree} (h : s.isOldAlias t = true) : s.siteOf? t = none := by
  rw [isOldAlias] at h
  split at h
  · rename_i hk
    rw [beq_iff_eq] at hk
    cases hd : t.child? .declaration with
    | none => simp [hd] at h
    | some d =>
      simp only [hd, Option.any_some, Bool.and_eq_true, beq_iff_eq] at h
      rw [siteOf?, hk]
      simp [isDeclaredFunction, isFunctionKind, exported?, hd, h.1]
  · rename_i hk
    simp only [Option.any_some, Bool.and_eq_true, beq_iff_eq] at h
    rw [siteOf?, h.1]
    simp [isDeclaredFunction, isFunctionKind]

theorem mem_sites {s : Script} {site : Site} (h : site ∈ s.sites) :
    ∃ t ∈ s.tree.children, s.siteOf? t = some site :=
  List.mem_filterMap.mp h

theorem site_contains {s : Script} {site : Site} (h : site ∈ s.sites) :
    Contains s.tree site.tree := by
  obtain ⟨t, ht, hs⟩ := mem_sites h
  exact .down rfl ht (siteOf?_contains hs)

/-- Sites come from statements of their own. -/
theorem site_eq_or_apart {s : Script} (hs : s.Regular) {a b : Site} (ha : a ∈ s.sites)
    (hb : b ∈ s.sites) : a = b ∨ Tree.Apart a.tree b.tree := by
  obtain ⟨t, ht, hta⟩ := mem_sites ha
  obtain ⟨u, hu, hub⟩ := mem_sites hb
  have hcs := hs.nested.children
  rcases hcs.eq_or_apart ht hu with rfl | hapart
  · exact .inl (Option.some.inj (hta.symm.trans hub))
  · obtain ⟨h1, -, h2⟩ := (hcs.mem ht).2.1.contains (siteOf?_contains hta)
    obtain ⟨h3, -, h4⟩ := (hcs.mem hu).2.1.contains (siteOf?_contains hub)
    refine .inr ?_
    unfold Tree.Apart at *
    omega

theorem Regular.site_nested {s : Script} (hs : s.Regular) {site : Site} (h : site ∈ s.sites) :
    site.tree.WellNested :=
  (hs.nested.contains (site_contains h)).2.1

end SceneSync.Script
