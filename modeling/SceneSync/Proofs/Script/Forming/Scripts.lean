import Mathlib
import SceneSync.Proofs.Script.AliasRemoval
import SceneSync.Proofs.Script.Forming.Modules
import SceneSync.Proofs.Script.Rebinding
import SceneSync.Proofs.Script.SecondConversion

/-!
# Scripts that are read

Every script that is read is regular and grammatical, its names are tokens, and its
statements, functions and parameter lists begin and end in no blank. So what the other
modules assume of a script holds of each one that has been read.
-/

namespace SceneSync.Script

open Script.Tree

variable {src : List Char} {dialect : Dialect} {s : Script} {t : Tree} {site : Site}

/-- The tree of a script is formed, and each statement has characters and starts with no
blank. -/
structure WellFormed (s : Script) : Prop where
  formed : Formed s.source s.dialect s.tree
  statements : ∀ t ∈ s.statements, Begun s.source t.start t.stop

theorem wellFormed_of_read (h : read dialect src = .ok s) : s.WellFormed := by
  rw [read] at h
  split at h
  · rename_i t hparse
    obtain rfl := Except.ok.inj h
    exact ⟨(formed_of_parse hparse).1, (formed_of_parse hparse).2⟩
  · cases h

namespace WellFormed

theorem parts (h : s.WellFormed) (ht : t ∈ s.tree.preorder) :
    Parts s.source s.dialect t.kind t.start t.stop t.children :=
  (h.formed.shapes t ht).parts

/-- What is asked of the parts of a function. -/
theorem functionParts (h : s.WellFormed) (ht : t ∈ s.tree.preorder)
    (hkind : isFunctionKind t.kind = true) :
    Begun s.source t.start t.stop ∧ ∀ c ∈ t.children, PartOfFunction c := by
  have hparts := h.parts ht
  cases hk : t.kind <;> simp [hk, isFunctionKind] at hkind <;> simpa [hk, Parts] using hparts

theorem siteParts (h : s.WellFormed) (hsite : site ∈ s.sites) :
    Begun s.source site.tree.start site.tree.stop ∧ ∀ c ∈ site.tree.children, PartOfFunction c := by
  obtain ⟨t, -, hof⟩ := mem_sites hsite
  exact h.functionParts (mem_preorder.mpr (site_contains hsite)) (siteOf?_kind hof)

/-- A list of parameters opens and closes with a parenthesis. -/
theorem listParts (h : s.WellFormed) {u : Tree} (hsite : site ∈ s.sites) (hu : u ∈ site.parameters?) :
    u ∈ s.tree.preorder ∧ u.kind = .formalParameters ∧
      (Text.encode s.source)[u.start]? = some 40 ∧ u.start + 2 ≤ u.stop ∧
      Ordered (u.start + 1) (u.stop - 1) u.children ∧
      (Text.encode s.source)[u.stop - 1]? = some 41 := by
  have hmem : u ∈ s.tree.preorder :=
    mem_preorder.mpr ((site_contains hsite).trans (contains_child (child?_mem hu)))
  have hkind := ((h.siteParts hsite).2 u (child?_mem hu)).parameters (child?_role hu)
  have hparts := h.parts hmem
  rw [hkind] at hparts
  exact ⟨hmem, hkind, hparts⟩

/-- The arguments of a construction play no roles of their own. -/
theorem argumentParts (h : s.WellFormed) (ht : t ∈ s.tree.preorder) (hkind : t.kind = .newExpression)
    {u : Tree} (hu : u ∈ t.children) (hrole : u.role = .arguments) :
    ∀ c ∈ u.children, c.role = .plain := by
  have hparts := h.parts ht
  rw [hkind] at hparts
  have hlist := h.parts (mem_preorder.mpr ((mem_preorder.mp ht).trans (contains_child hu)))
  rwa [hparts u hu hrole] at hlist

theorem regular (h : s.WellFormed) : s.Regular where
  nested := h.formed.nested
  boundaries t ht := ⟨(h.formed.shapes t ht).start, (h.formed.shapes t ht).stop⟩
  tokens t ht hkind := by
    have hparts := h.parts ht
    rw [hkind] at hparts
    exact ⟨hparts.1, hparts.2.1⟩
  functions _ hsite := (h.siteParts hsite).1.lt
  lists _ hsite u hu := by
    obtain ⟨hmem, hkind, hopened, hclosed, hbetween, -⟩ := h.listParts hsite hu
    refine ⟨hkind, hopened, hclosed, hbetween, fun hplain p hp => ?_⟩
    have hparts := h.parts (mem_preorder.mpr ((mem_preorder.mp hmem).trans (contains_child hp)))
    cases hk : p.kind <;> first | rfl | (rw [hk] at hparts; cases hplain.symm.trans hparts)

theorem grammatical (h : s.WellFormed) : s.Grammatical where
  identifiers t ht hkind := by
    have hparts := h.parts ht
    rcases hkind with hkind | hkind <;> rwa [hkind] at hparts
  names t ht hkind n hn := by
    have hparts := h.parts ht
    rcases hkind with hkind | hkind | hkind
    · exact ((h.functionParts ht hkind).2 n (child?_mem hn)).name (child?_role hn)
    · rw [hkind] at hparts
      exact hparts n (child?_mem hn) (child?_role hn)
    · rw [hkind] at hparts
      exact hparts n (child?_mem hn) (child?_role hn)
  arguments t ht hkind as has := h.argumentParts ht hkind (child?_mem has) (child?_role has)
  lists _ hsite c hc := ((h.siteParts hsite).2 c hc).parameters
  exports t ht hlisted := by
    have hparts := h.parts (mem_preorder.mpr (contains_child ht))
    rw [listedIn] at hlisted
    split at hlisted
    · rename_i hexport
      rw [Bool.and_eq_true, beq_iff_eq] at hexport
      rw [hexport.1] at hparts
      obtain ⟨name, hname⟩ := List.exists_mem_of_ne_nil _ hlisted
      obtain ⟨c, hc, -⟩ := List.mem_flatMap.mp hname
      rw [List.mem_filter, beq_iff_eq] at hc
      have hnone (r : Role) (hr : ∀ d ∈ t.children, d.role ≠ r) : t.child? r = none :=
        List.find?_eq_none.mpr fun d hd => by simpa using hr d hd
      rw [exported?, hnone .declaration fun d hd => (hparts c hc.1 hc.2 d hd).1]
      exact hnone .value fun d hd => (hparts c hc.1 hc.2 d hd).2
    · exact absurd rfl hlisted

theorem lexical (h : s.WellFormed) : Lexical s.tree where
  names t ht hkind := by
    have hparts := h.parts ht
    rcases hkind with hkind | hkind | hkind <;> rwa [hkind] at hparts
  receivers t ht hkind := by
    have hparts := h.parts ht
    rw [hkind] at hparts
    exact hparts.1
  arguments t ht hkind as has hrole := h.argumentParts ht hkind has hrole

theorem solidTokens (h : s.WellFormed) : s.SolidTokens where
  statements t ht := ⟨(h.statements t ht).lt, (h.statements t ht).solid⟩
  functions _ hsite := (h.siteParts hsite).1.solid
  lists _ hsite u hu := by
    obtain ⟨-, -, -, -, -, hlast⟩ := h.listParts hsite hu
    simp [hlast, isBlankByte]
  receivers t ht hkind := by
    have hparts := h.parts ht
    rw [hkind] at hparts
    exact hparts.2.2

end WellFormed

end SceneSync.Script
