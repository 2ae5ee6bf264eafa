import Mathlib
import SceneSync.Proofs.Pairing
import SceneSync.Proofs.Script.Nesting
import SceneSync.Proofs.Splice
import SceneSync.Script.Conversion

/-!
# Retold trees

What a converted text is read as when the parser reads it the way it was meant: the
tree of the source, with a name where a `this` gave way to the scene. Such a tree is
walked like the one it comes from.
-/

namespace SceneSync.Script

open Script.Tree

/-- Whether a node is a `this` that gives way to the scene. -/
def isReplaced (s : Script) (t : Tree) : Bool :=
  t.kind == .thisExpression && s.sites.any fun site =>
    (sceneUses site.tree).any fun u => u.start == t.start && u.role == t.role

/-- The text of a node with the scene's name for each `this` in it that gives way. -/
def textAfter (s : Script) (o : ConversionOptions) (t : Tree) : List Char :=
  readBack (Edit.splice (Text.encode (s.text t)) 0
    ((t.preorder.filter s.isReplaced).map fun u =>
      ⟨(u.start : Int) - t.start, (u.stop : Int) - t.start, bytesOf o.context⟩))

mutual
/-- A node of a source and what it is in the converted text. -/
def Retold (s s' : Script) (o : ConversionOptions) : Tree → Tree → Prop
  | .node r k a b cs, .node r' k' a' b' cs' =>
    r' = r ∧ if s.isReplaced (.node r k a b cs) = true then
      cs = [] ∧ cs' = [] ∧ k' = .identifier ∧ s'.textString (.node r' k' a' b' cs') = o.context
    else
      k' = k ∧ s'.text (.node r' k' a' b' cs') = s.textAfter o (.node r k a b cs) ∧
        RetoldAll s s' o cs cs'

def RetoldAll (s s' : Script) (o : ConversionOptions) : List Tree → List Tree → Prop
  | [], [] => True
  | t :: ts, t' :: ts' => Retold s s' o t t' ∧ RetoldAll s s' o ts ts'
  | _, _ => False
end

mutual
def decideRetold (s s' : Script) (o : ConversionOptions) :
    ∀ t t' : Tree, Decidable (Retold s s' o t t')
  | .node r k a b cs, .node r' k' a' b' cs' =>
    haveI := decideRetoldAll s s' o cs cs'
    inferInstanceAs (Decidable (r' = r ∧ if s.isReplaced (.node r k a b cs) = true then
        cs = [] ∧ cs' = [] ∧ k' = .identifier ∧ s'.textString (.node r' k' a' b' cs') = o.context
      else
        k' = k ∧ s'.text (.node r' k' a' b' cs') = s.textAfter o (.node r k a b cs) ∧
          RetoldAll s s' o cs cs'))

def decideRetoldAll (s s' : Script) (o : ConversionOptions) :
    ∀ ts ts' : List Tree, Decidable (RetoldAll s s' o ts ts')
  | [], [] => isTrue trivial
  | [], _ :: _ => isFalse id
  | _ :: _, [] => isFalse id
  | t :: ts, t' :: ts' =>
    haveI := decideRetold s s' o t t'
    haveI := decideRetoldAll s s' o ts ts'
    inferInstanceAs (Decidable (Retold s s' o t t' ∧ RetoldAll s s' o ts ts'))
end

instance (s s' : Script) (o : ConversionOptions) : DecidableRel (Retold s s' o) :=
  decideRetold s s' o

instance (s s' : Script) (o : ConversionOptions) : DecidableRel (RetoldAll s s' o) :=
  decideRetoldAll s s' o

variable {s s' : Script} {o : ConversionOptions} {t t' u u' : Tree} {ts ts' : List Tree}

theorem retoldAll_iff : RetoldAll s s' o ts ts' ↔ List.Forall₂ (Retold s s' o) ts ts' := by
  induction ts generalizing ts' with
  | nil => cases ts' <;> simp [RetoldAll]
  | cons t ts ih => cases ts' <;> simp [RetoldAll, ih]

theorem Retold.role (h : Retold s s' o t t') : t'.role = t.role := by
  cases t
  cases t'
  exact h.1

/-- A node becomes a name, or it stays what it is with its children retold. -/
theorem Retold.cases (h : Retold s s' o t t') :
    s.isReplaced t = true ∧ t.children = [] ∧ t'.children = [] ∧ t'.kind = .identifier ∧
      s'.textString t' = o.context ∨
    s.isReplaced t = false ∧ t'.kind = t.kind ∧ s'.text t' = s.textAfter o t ∧
      List.Forall₂ (Retold s s' o) t.children t'.children := by
  cases t
  cases t'
  obtain ⟨-, h⟩ := h
  split at h
  · exact .inl ⟨‹_›, h⟩
  · rename_i hnot
    exact .inr ⟨by simpa using hnot, h.1, h.2.1, retoldAll_iff.mp h.2.2⟩

theorem isReplaced_kind (h : s.isReplaced t = true) : t.kind = .thisExpression := by
  rw [isReplaced, Bool.and_eq_true, beq_iff_eq] at h
  exact h.1

/-- Only `this` changes its kind, and only into a name. -/
theorem Retold.kind_iff (h : Retold s s' o t t') {k : Kind} (hname : k ≠ .identifier)
    (hthis : k ≠ .thisExpression) : t'.kind = k ↔ t.kind = k := by
  rcases h.cases with ⟨hr, -, -, hkind, -⟩ | ⟨-, hkind, -⟩
  · rw [hkind, isReplaced_kind hr]
    exact ⟨fun h => absurd h.symm hname, fun h => absurd h.symm hthis⟩
  · rw [hkind]

theorem Retold.children (h : Retold s s' o t t') :
    List.Forall₂ (Retold s s' o) t.children t'.children := by
  rcases h.cases with ⟨-, hcs, hcs', -⟩ | ⟨-, -, -, hcs⟩
  · rw [hcs, hcs']
    exact .nil
  · exact hcs

/-- First children in a role correspond when related children have the same roles. -/
theorem rel_find_role {R : Tree → Tree → Prop} (hrole : ∀ c c', R c c' → c'.role = c.role)
    (h : List.Forall₂ R ts ts') (r : Role) :
    Option.Rel R (ts.find? fun c => c.role == r) (ts'.find? fun c => c.role == r) :=
  rel_find h fun c c' hc => by rw [hrole c c' hc]

theorem Retold.child? (h : Retold s s' o t t') (r : Role) :
    Option.Rel (Retold s s' o) (t.child? r) (t'.child? r) :=
  rel_find_role (fun _ _ => Retold.role) h.children r

theorem Retold.child?_none {r : Role} (h : Retold s s' o t t') (hc : t.child? r = none) :
    t'.child? r = none := by
  have hrel := h.child? r
  rw [hc] at hrel
  exact rel_none hrel

theorem Retold.child?_some {r : Role} {c : Tree} (h : Retold s s' o t t')
    (hc : t.child? r = some c) : ∃ c', t'.child? r = some c' ∧ Retold s s' o c c' := by
  have hrel := h.child? r
  rw [hc] at hrel
  exact exists_of_rel_some hrel

mutual
theorem Retold.preorder : ∀ {t t' : Tree}, Retold s s' o t t' →
    List.Forall₂ (Retold s s' o) t.preorder t'.preorder
  | .node _ _ _ _ _, .node _ _ _ _ _, h =>
    .cons h (RetoldAll.preorder (retoldAll_iff.mpr h.children))

theorem RetoldAll.preorder : ∀ {ts ts' : List Tree}, RetoldAll s s' o ts ts' →
    List.Forall₂ (Retold s s' o) (preorderAll ts) (preorderAll ts')
  | [], [], _ => .nil
  | _ :: _, _ :: _, h => List.rel_append h.1.preorder h.2.preorder
end

/-- What is reached from a retold node comes from what is reached in the source. -/
theorem Retold.reaches (h : Retold s s' o t t') (hu : Reaches (· == .classBody) t' u') :
    ∃ u, Reaches (· == .classBody) t u ∧ Retold s s' o u u' := by
  induction hu generalizing t with
  | here => exact ⟨t, .here t, h⟩
  | @down t' c' u' hskip hc _ ih =>
    obtain ⟨c, hmem, hrel⟩ := exists_left_of_mem h.children hc
    obtain ⟨u, hreach, hu⟩ := ih hrel
    refine ⟨u, .down ?_ hmem hreach, hu⟩
    rw [beq_eq_false_iff_ne] at hskip ⊢
    rwa [Ne, ← h.kind_iff (by decide) (by decide)]

/-! ## Names -/

theorem textAfter_of_noneReplaced (h : ∀ u ∈ t.preorder, s.isReplaced u = false) :
    s.textAfter o t = s.text t := by
  have hnone : t.preorder.filter s.isReplaced = [] := by
    rw [List.filter_eq_nil_iff]
    intro u hu
    simp [h u hu]
  rw [textAfter, hnone, List.map_nil, Edit.splice, List.drop_zero, readBack, Text.decode_encode]
  rfl

/-- A token that is no `this` keeps its text. -/
theorem Retold.text_of_token (h : Retold s s' o t t') (hleaf : t.children = [])
    (hkind : t.kind ≠ .thisExpression) : s'.text t' = s.text t := by
  have hnot {u : Tree} (hu : u.kind ≠ .thisExpression) : s.isReplaced u = false := by
    by_contra hr
    exact hu (isReplaced_kind (by simpa using hr))
  rcases h.cases with ⟨hr, -⟩ | ⟨-, -, htext, -⟩
  · exact absurd (isReplaced_kind hr) hkind
  · rw [htext, textAfter_of_noneReplaced]
    intro u hu
    obtain rfl : u = t := by
      cases t
      obtain rfl := hleaf
      simpa [Tree.preorder, preorderAll] using hu
    exact hnot hkind

end SceneSync.Script
