import Mathlib
import SceneSync.Script.Tree

/-!
# Nested spans

The children of a node stand one after the other inside its span. Of two nodes of
such a tree one lies below the other, or else their spans are apart.
-/

namespace SceneSync.Script.Tree

mutual
/-- The children of every node are in order, apart, and inside the node. -/
def WellNested : Tree → Prop
  | node _ _ a b cs => Ordered a b cs

/-- Well-nested trees one after the other between two bytes. -/
def Ordered : Nat → Nat → List Tree → Prop
  | a, b, [] => a ≤ b
  | a, b, t :: ts => a ≤ t.start ∧ t.WellNested ∧ Ordered t.stop b ts
end

/-- A walk down from the first tree to the second that never goes below a node of a
kind in `skip`. -/
inductive Reaches (skip : Kind → Bool) : Tree → Tree → Prop
  | here (t : Tree) : Reaches skip t t
  | down {t c u : Tree} : skip t.kind = false → c ∈ t.children → Reaches skip c u →
      Reaches skip t u

/-- The second tree is the first or lies below it. -/
abbrev Contains : Tree → Tree → Prop := Reaches fun _ => false

theorem Reaches.contains {skip : Kind → Bool} {t u : Tree} (h : Reaches skip t u) :
    Contains t u := by
  induction h with
  | here t => exact .here t
  | down _ hc _ ih => exact .down rfl hc ih

theorem contains_child {t c : Tree} (h : c ∈ t.children) : Contains t c :=
  .down rfl h (.here c)

theorem Reaches.trans {skip : Kind → Bool} {t u v : Tree} (h : Reaches skip t u)
    (h' : Reaches skip u v) : Reaches skip t v := by
  induction h with
  | here => exact h'
  | down hk hc _ ih => exact .down hk hc (ih h')

/-- A walk that leaves its first tree comes to the end from a parent of it. -/
theorem Reaches.parent {skip : Kind → Bool} {t u : Tree} (h : Reaches skip t u) (hne : t ≠ u) :
    ∃ p, Reaches skip t p ∧ skip p.kind = false ∧ u ∈ p.children := by
  induction h with
  | here => exact absurd rfl hne
  | @down t c u hk hc hcu ih =>
    by_cases heq : c = u
    · exact ⟨t, .here t, hk, heq ▸ hc⟩
    · obtain ⟨p, hp, hpk, hup⟩ := ih heq
      exact ⟨p, .down hk hc hp, hpk, hup⟩

/-- Where nothing is skipped everything is reached. -/
theorem Contains.reaches {skip : Kind → Bool} {t u : Tree} (h : Contains t u)
    (hnone : ∀ v, Contains t v → skip v.kind = false) : Reaches skip t u := by
  induction h with
  | here t => exact .here t
  | down _ hc _ ih =>
    exact .down (hnone _ (.here _)) hc (ih fun v hv => hnone v ((contains_child hc).trans hv))

theorem sizeOf_child_lt {p c : Tree} (h : c ∈ p.children) : sizeOf c < sizeOf p := by
  obtain ⟨r, k, a, b, cs⟩ := p
  have := List.sizeOf_lt_of_mem h
  simp only [Tree.children] at this
  simp only [Tree.node.sizeOf_spec]
  omega

theorem Contains.sizeOf_le {t u : Tree} (h : Contains t u) : sizeOf u ≤ sizeOf t := by
  induction h with
  | here => exact Nat.le_refl _
  | down _ hc _ ih => exact Nat.le_trans ih (Nat.le_of_lt (sizeOf_child_lt hc))

/-- No child contains its parent. -/
theorem not_contains_parent {p c : Tree} (h : c ∈ p.children) : ¬ Contains c p :=
  fun hcontains => Nat.not_lt.mpr hcontains.sizeOf_le (sizeOf_child_lt h)

theorem child?_mem {r : Role} {t c : Tree} (h : t.child? r = some c) : c ∈ t.children :=
  List.mem_of_find?_eq_some h

theorem child?_role {r : Role} {t c : Tree} (h : t.child? r = some c) : c.role = r := by
  have := List.find?_some h
  simpa using this

/-! ## The walk lists what it reaches -/

mutual
theorem mem_preorderOutside (skip : Kind → Bool) (u : Tree) :
    ∀ t : Tree, u ∈ t.preorderOutside skip ↔ Reaches skip t u
  | node r k a b cs => by
    have hcs := mem_preorderOutsideAll skip u cs
    rw [preorderOutside, List.mem_cons]
    constructor
    · rintro (rfl | h)
      · exact .here _
      · cases hk : skip k with
        | true => simp [hk] at h
        | false =>
          obtain ⟨c, hc, hu⟩ := hcs.mp (by simpa [hk] using h)
          exact .down hk hc hu
    · intro h
      cases h with
      | here => exact .inl rfl
      | down hk hc hu =>
        have hk' : skip k = false := hk
        refine .inr ?_
        rw [hk', if_neg Bool.false_ne_true]
        exact hcs.mpr ⟨_, hc, hu⟩

theorem mem_preorderOutsideAll (skip : Kind → Bool) (u : Tree) :
    ∀ ts : List Tree, u ∈ preorderOutsideAll skip ts ↔ ∃ t ∈ ts, Reaches skip t u
  | [] => by simp [preorderOutsideAll]
  | t :: ts => by
    rw [preorderOutsideAll, List.mem_append, mem_preorderOutside skip u t,
      mem_preorderOutsideAll skip u ts]
    simp
end

mutual
theorem preorderOutside_none : ∀ t : Tree, t.preorderOutside (fun _ => false) = t.preorder
  | node r k a b cs => by
    rw [preorderOutside, preorder, if_neg Bool.false_ne_true, preorderOutsideAll_none cs]

theorem preorderOutsideAll_none :
    ∀ ts : List Tree, preorderOutsideAll (fun _ => false) ts = preorderAll ts
  | [] => rfl
  | t :: ts => by
    rw [preorderOutsideAll, preorderAll, preorderOutside_none t, preorderOutsideAll_none ts]
end

theorem mem_preorder {t u : Tree} : u ∈ t.preorder ↔ Contains t u := by
  rw [← preorderOutside_none, mem_preorderOutside]

/-! ## Spans -/

mutual
def decideWellNested : ∀ t : Tree, Decidable t.WellNested
  | node _ _ a b cs => decideOrdered a b cs

def decideOrdered : ∀ (a b : Nat) (ts : List Tree), Decidable (Ordered a b ts)
  | a, b, [] => inferInstanceAs (Decidable (a ≤ b))
  | a, b, t :: ts =>
    haveI := decideWellNested t
    haveI := decideOrdered t.stop b ts
    inferInstanceAs (Decidable (a ≤ t.start ∧ t.WellNested ∧ Ordered t.stop b ts))
end

instance (t : Tree) : Decidable t.WellNested := decideWellNested t

instance (a b : Nat) (ts : List Tree) : Decidable (Ordered a b ts) := decideOrdered a b ts

mutual
theorem WellNested.start_le_stop : ∀ {t : Tree}, t.WellNested → t.start ≤ t.stop
  | node _ _ _ _ _, h => Ordered.start_le_stop h

theorem Ordered.start_le_stop : ∀ {a b : Nat} {ts : List Tree}, Ordered a b ts → a ≤ b
  | _, _, [], h => h
  | _, _, _ :: _, ⟨h1, h2, h3⟩ =>
    Nat.le_trans h1 (Nat.le_trans (WellNested.start_le_stop h2) (Ordered.start_le_stop h3))
end

/-- Each of the trees in order lies between the two bytes. -/
theorem Ordered.mem {a b : Nat} {ts : List Tree} (h : Ordered a b ts) {t : Tree} (ht : t ∈ ts) :
    a ≤ t.start ∧ t.WellNested ∧ t.stop ≤ b := by
  induction ts generalizing a with
  | nil => simp at ht
  | cons u us ih =>
    obtain ⟨h1, h2, h3⟩ := h
    rcases List.mem_cons.mp ht with rfl | hmem
    · exact ⟨h1, h2, h3.start_le_stop⟩
    · obtain ⟨h4, h5, h6⟩ := ih h3 hmem
      have := h2.start_le_stop
      exact ⟨by omega, h5, h6⟩

theorem Ordered.pairwise {a b : Nat} {ts : List Tree} (h : Ordered a b ts) :
    ts.Pairwise fun t u => t.stop ≤ u.start := by
  induction ts generalizing a with
  | nil => exact .nil
  | cons t ts ih => exact .cons (fun u hu => (h.2.2.mem hu).1) (ih h.2.2)

theorem WellNested.children {t : Tree} (h : t.WellNested) : Ordered t.start t.stop t.children := by
  cases t
  exact h

theorem Ordered.mono {a b c : Nat} {ts : List Tree} (h : Ordered a b ts) (hbc : b ≤ c) :
    Ordered a c ts := by
  induction ts generalizing a with
  | nil => exact Nat.le_trans h hbc
  | cons t ts ih => exact ⟨h.1, h.2.1, ih h.2.2⟩

/-- The byte behind the last of some trees, or one before them when there are none. -/
def lastStop (a : Nat) (ts : List Tree) : Nat := (ts.getLast?.map stop).getD a

@[simp] theorem lastStop_nil (a : Nat) : lastStop a [] = a := rfl

@[simp] theorem lastStop_cons (a : Nat) (t : Tree) (ts : List Tree) :
    lastStop a (t :: ts) = lastStop t.stop ts := by
  cases ts with
  | nil => rfl
  | cons u us => simp [lastStop, List.getLast?_cons]

theorem Ordered.append {a b : Nat} {ts us : List Tree} (h : Ordered a b (ts ++ us)) :
    Ordered a (lastStop a ts) ts ∧ Ordered (lastStop a ts) b us := by
  induction ts generalizing a with
  | nil => exact ⟨Nat.le_refl a, h⟩
  | cons t ts ih =>
    obtain ⟨hstart, hnested, hrest⟩ := h
    rw [lastStop_cons]
    exact ⟨⟨hstart, hnested, (ih hrest).1⟩, (ih hrest).2⟩

/-- What lies in a well-nested tree is well-nested and inside its span. -/
theorem WellNested.contains {t u : Tree} (h : t.WellNested) (hu : Contains t u) :
    t.start ≤ u.start ∧ u.WellNested ∧ u.stop ≤ t.stop := by
  induction hu with
  | here => exact ⟨Nat.le_refl _, h, Nat.le_refl _⟩
  | down _ hc _ ih =>
    obtain ⟨h1, h2, h3⟩ := h.children.mem hc
    obtain ⟨h4, h5, h6⟩ := ih h2
    exact ⟨Nat.le_trans h1 h4, h5, Nat.le_trans h6 h3⟩

/-- Two spans without a common byte. -/
def Apart (t u : Tree) : Prop := t.stop ≤ u.start ∨ u.stop ≤ t.start

theorem Ordered.eq_or_apart {a b : Nat} {ts : List Tree} (h : Ordered a b ts) {t u : Tree}
    (ht : t ∈ ts) (hu : u ∈ ts) : t = u ∨ Apart t u :=
  List.Pairwise.forall_of_forall_of_flip (R := fun t u => t = u ∨ Apart t u)
    (fun _ _ => .inl rfl) (h.pairwise.imp fun h => .inr (.inl h))
    (h.pairwise.imp fun h => .inr (.inr h)) ht hu

/-- Of two nodes of a tree one contains the other, or else they are apart. -/
theorem WellNested.contains_or_apart {t u v : Tree} (h : t.WellNested) (hu : Contains t u)
    (hv : Contains t v) : Contains u v ∨ Contains v u ∨ Apart u v := by
  induction hu with
  | here => exact .inl hv
  | down _ hc hcu ih =>
    cases hv with
    | here => exact .inr (.inl (.down rfl hc hcu))
    | down _ hd hdv =>
      rcases h.children.eq_or_apart hc hd with rfl | hapart
      · exact ih (h.children.mem hc).2.1 hdv
      · -- Spans below two different children are as far apart as the children.
        obtain ⟨hu1, -, hu2⟩ := (h.children.mem hc).2.1.contains hcu
        obtain ⟨hv1, -, hv2⟩ := (h.children.mem hd).2.1.contains hdv
        refine .inr (.inr ?_)
        unfold Apart at *
        omega

/-- What has a byte of its own has one parent. -/
theorem WellNested.parent_unique {t p q c : Tree} (h : t.WellNested) (hp : Contains t p)
    (hq : Contains t q) (hpc : c ∈ p.children) (hqc : c ∈ q.children) (hc : c.start < c.stop) :
    p = q := by
  have hbelow {p q : Tree} (hp : Contains t p) (hpq : Contains p q) (hpc : c ∈ p.children)
      (hqc : c ∈ q.children) : p = q := by
    cases hpq with
    | here => rfl
    | @down _ d _ _ hd hdq =>
      have hnest := (h.contains hp).2.1
      obtain ⟨h1, -, h2⟩ := (hnest.contains (contains_child hd)).2.1.contains
        (hdq.trans (contains_child hqc))
      rcases hnest.children.eq_or_apart hpc hd with rfl | hapart
      · exact absurd hdq (not_contains_parent hqc)
      · unfold Apart at hapart
        omega
  rcases h.contains_or_apart hp hq with hpq | hqp | hapart
  · exact hbelow hp hpq hpc hqc
  · exact (hbelow hq hqp hqc hpc).symm
  · obtain ⟨h1, -, h2⟩ := (h.contains hp).2.1.contains (contains_child hpc)
    obtain ⟨h3, -, h4⟩ := (h.contains hq).2.1.contains (contains_child hqc)
    unfold Apart at hapart
    omega

end SceneSync.Script.Tree
