import Mathlib
import SceneSync.Proofs.Script.Phrase
import SceneSync.Proofs.Script.Recasting

/-!
# Rebinding

The tree of a function, or of its body, with the scene's name for each `this` that is the
scene: for the object of a member, and for the first argument of a construction, outside
of the bodies of classes. What such a tree publishes is what it published before.
-/

namespace SceneSync.Script

open Script.Tree

/-! ## Where `this` is the scene -/

/-- What the nodes above say of a node. -/
structure Spot where
  /-- it is in the body of a class -/
  closed : Bool
  /-- a `this` here is the scene -/
  scene : Bool
  /-- it has the arguments of a construction -/
  arguments : Bool

def Spot.inside : Spot := ⟨false, false, false⟩

def Spot.outside : Spot := ⟨true, false, false⟩

/-- What a node says of those of its children that are still to come: the first object
and the first argument list among them count, and the next child. -/
structure Ahead where
  closed : Bool
  object : Bool
  arguments : Bool
  next : Bool

def Spot.ahead (p : Spot) (k : Kind) : Ahead where
  closed := p.closed || k == .classBody
  object := !p.closed && (k == .memberExpression || k == .subscriptExpression)
  arguments := !p.closed && k == .newExpression
  next := p.arguments

def Ahead.spot (w : Ahead) (r : Role) : Spot where
  closed := w.closed
  scene := w.next || w.object && r == .object
  arguments := w.arguments && r == .arguments

def Ahead.behind (w : Ahead) (r : Role) : Ahead where
  closed := w.closed
  object := w.object && r != .object
  arguments := w.arguments && r != .arguments
  next := false

/-- The spots of children. -/
def Ahead.spots : Ahead → List Tree → List (Spot × Tree)
  | _, [] => []
  | w, t :: ts => (w.spot t.role, t) :: (w.behind t.role).spots ts

/-- The spots of the nodes of a tree that is inside of a function. -/
inductive Stands (root : Tree) : Spot → Tree → Prop
  | here : Stands root .inside root
  | child {p q : Spot} {t c : Tree} : Stands root p t →
      (q, c) ∈ (p.ahead t.kind).spots t.children → Stands root q c

/-! ## Rebound trees -/

/-- The text from one byte to another. -/
def between (s : Script) (a b : Nat) : List Char :=
  Text.takeBytes (b - a) (Text.dropBytes a s.source)

mutual
/-- The phrase of a tree in which the scene's name stands for each `this` that is the scene.
What stands before the tree is taken from a byte on. -/
def rebound (s : Script) (context : String) (spot : Spot) (pos : Nat) : Tree → Phrase
  | .node r k a b cs =>
    if spot.scene && k == .thisExpression then
      .node r .identifier (s.between pos a) [] context.toList
    else
      .node r k (s.between pos a) (reboundAll s context (spot.ahead k) a cs)
        (s.between ((cs.getLast?.map Tree.stop).getD a) b)

def reboundAll (s : Script) (context : String) (ahead : Ahead) (pos : Nat) :
    List Tree → List Phrase
  | [] => []
  | t :: ts => rebound s context (ahead.spot t.role) pos t ::
      reboundAll s context (ahead.behind t.role) t.stop ts
end

/-- A tree at a spot and the same tree rebound. -/
inductive Rebound (s s' : Script) (context : String) : Spot → Tree → Tree → Prop
  | scene {spot : Spot} {t t' : Tree} : spot.scene = true → t.kind = .thisExpression →
      t'.role = t.role → t'.kind = .identifier → t'.children = [] →
      s'.textString t' = context → Rebound s s' context spot t t'
  | kept {spot : Spot} {t t' : Tree} : (spot.scene = true → t.kind ≠ .thisExpression) →
      t'.role = t.role → t'.kind = t.kind → (t.children = [] → s'.text t' = s.text t) →
      List.Forall₂ (fun c c' => Rebound s s' context c.1 c.2 c')
        ((spot.ahead t.kind).spots t.children) t'.children →
      Rebound s s' context spot t t'

variable {s s' : Script} {context : String} {spot : Spot} {w : Ahead} {root t t' u u' : Tree}
  {ts ts' : List Tree}

/-! ## Spots -/

/-- What a child's spot says of it, and of its parent. -/
theorem of_mem_spots {q : Spot} {c : Tree} (h : (q, c) ∈ w.spots ts) :
    c ∈ ts ∧ q.closed = w.closed ∧
      (q.scene = true → w.next = true ∧ ts.head? = some c ∨
        w.object = true ∧ ts.find? (fun c => c.role == .object) = some c) ∧
      (q.arguments = true →
        w.arguments = true ∧ ts.find? (fun c => c.role == .arguments) = some c) := by
  induction ts generalizing w with
  | nil => cases h
  | cons t ts ih =>
    rw [Ahead.spots] at h
    cases h with
    | head =>
      refine ⟨by simp, rfl, fun h => ?_, fun h => ?_⟩
      · simp only [Ahead.spot, Bool.or_eq_true, Bool.and_eq_true] at h
        simp only [List.head?_cons, List.find?_cons]
        cases h with
        | inl h => exact .inl ⟨h, trivial⟩
        | inr h => exact .inr ⟨h.1, by rw [h.2]⟩
      · simp only [Ahead.spot, Bool.and_eq_true] at h
        rw [List.find?_cons, h.2]
        exact ⟨h.1, rfl⟩
    | tail _ h =>
      obtain ⟨hmem, hclosed, hscene, harguments⟩ := ih h
      refine ⟨by simp [hmem], hclosed, fun h => ?_, fun h => ?_⟩
      · have := hscene h
        simp only [Ahead.behind, Bool.false_eq_true, false_and, false_or, Bool.and_eq_true,
          bne_iff_ne] at this
        rw [List.find?_cons, beq_eq_false_iff_ne.mpr this.1.2]
        exact .inr ⟨this.1.1, this.2⟩
      · have := harguments h
        simp only [Ahead.behind, Bool.and_eq_true, bne_iff_ne] at this
        rw [List.find?_cons, beq_eq_false_iff_ne.mpr this.1.2]
        exact ⟨this.1.1, this.2⟩

theorem spots_map_snd (w : Ahead) (ts : List Tree) : (w.spots ts).map (·.2) = ts := by
  induction ts generalizing w with
  | nil => rfl
  | cons t ts ih => rw [Ahead.spots, List.map_cons, ih]

theorem exists_spot {c : Tree} (h : c ∈ ts) : ∃ q, (q, c) ∈ w.spots ts := by
  rw [← spots_map_snd w ts] at h
  obtain ⟨⟨q, c'⟩, hq, rfl⟩ := List.mem_map.mp h
  exact ⟨q, hq⟩

theorem forall₂_of_spots {R : Spot → Tree → Tree → Prop}
    (h : List.Forall₂ (fun c c' => R c.1 c.2 c') (w.spots ts) ts') :
    List.Forall₂ (fun c c' => ∃ q, (q, c) ∈ w.spots ts ∧ R q c c') ts ts' := by
  have hmembers := (List.forall₂_and_left (p := (· ∈ w.spots ts)) _ _).mpr ⟨fun _ h => h, h⟩
  have hpairs : List.Forall₂ (fun c c' => ∃ q, (q, c) ∈ w.spots ts ∧ R q c c')
      ((w.spots ts).map (·.2)) ts' :=
    List.forall₂_map_left_iff.mpr (hmembers.imp fun c _ hc => ⟨c.1, hc.1, hc.2⟩)
  rwa [spots_map_snd] at hpairs

/-- First children in a role correspond, and the spot of the one in the source is known. -/
theorem find_of_spots {R : Spot → Tree → Tree → Prop}
    (hrole : ∀ q c c', R q c c' → c'.role = c.role)
    (h : List.Forall₂ (fun c c' => R c.1 c.2 c') (w.spots ts) ts') {r : Role} {c' : Tree}
    (hc : ts'.find? (fun c => c.role == r) = some c') :
    ∃ v c, ts.find? (fun c => c.role == r) = some c ∧ R (Ahead.spot v r) c c' ∧
      (r = .object → v.object = w.object) ∧ (r = .arguments → v.arguments = w.arguments) := by
  induction ts generalizing w ts' with
  | nil =>
    rw [Ahead.spots, List.forall₂_nil_left_iff] at h
    subst h
    cases hc
  | cons t ts ih =>
    rw [Ahead.spots, List.forall₂_cons_left_iff] at h
    obtain ⟨t', ts'', ht, hts, rfl⟩ := h
    rw [List.find?_cons, hrole _ _ _ ht] at hc
    by_cases hr : t.role = r
    · simp only [hr, beq_self_eq_true] at hc
      obtain rfl := Option.some.inj hc
      exact ⟨w, t, by simp [hr], hr ▸ ht, fun _ => rfl, fun _ => rfl⟩
    · simp only [beq_eq_false_iff_ne.mpr hr] at hc
      obtain ⟨v, c, hfind, hrel, hobject, harguments⟩ := ih hts hc
      refine ⟨v, c, by simp [hr, hfind], hrel, fun h => ?_, fun h => ?_⟩
      · rw [hobject h, Ahead.behind, ← h]
        simp [hr]
      · rw [harguments h, Ahead.behind, ← h]
        simp [hr]

theorem spot_of_find {r : Role} {c : Tree} (h : ts.find? (fun c => c.role == r) = some c) :
    ∃ v, (Ahead.spot v r, c) ∈ w.spots ts ∧ (r = .object → v.object = w.object) ∧
      (r = .arguments → v.arguments = w.arguments) := by
  have hself : List.Forall₂ (fun c c' => (c.1, c.2) ∈ w.spots ts ∧ c' = c.2) (w.spots ts)
      ((w.spots ts).map (·.2)) :=
    List.forall₂_map_right_iff.mpr (List.forall₂_same.mpr fun c hc => ⟨hc, rfl⟩)
  rw [spots_map_snd] at hself
  obtain ⟨v, c', -, hv, hspot⟩ := find_of_spots
    (R := fun q c c' => (q, c) ∈ w.spots ts ∧ c' = c) (fun _ _ _ h => by rw [h.2]) hself h
  exact ⟨v, hv.2 ▸ hv.1, hspot⟩

/-- What a spot says is so. -/
theorem Stands.sound (h : Stands root spot u) :
    Contains root u ∧ (spot.closed = false → Reaches (· == .classBody) root u) ∧
      (spot.scene = true → ∃ t, Reaches (· == .classBody) root t ∧ sceneUse? t = some u) ∧
      (spot.arguments = true → ∃ t, Reaches (· == .classBody) root t ∧
        t.kind = .newExpression ∧ t.child? .arguments = some u) := by
  induction h with
  | here => exact ⟨.here _, fun _ => .here _, by simp [Spot.inside], by simp [Spot.inside]⟩
  | @child p q t c _ hc ih =>
    obtain ⟨hin, hreach, -, harguments⟩ := ih
    obtain ⟨hmem, hclosed, hscene, hargs⟩ := of_mem_spots hc
    refine ⟨hin.trans (contains_child hmem), fun h => ?_, fun h => ?_, fun h => ?_⟩
    · rw [hclosed, Spot.ahead, Bool.or_eq_false_iff] at h
      exact (hreach h.1).trans (.down h.2 hmem (.here c))
    · cases hscene h with
      | inl hnext =>
        obtain ⟨v, hv, hk, has⟩ := harguments hnext.1
        exact ⟨v, hv, by simp [sceneUse?, hk, has, hnext.2]⟩
      | inr hobject =>
        obtain ⟨hopen, hfind⟩ := hobject
        simp only [Spot.ahead, Bool.and_eq_true, Bool.not_eq_true', Bool.or_eq_true,
          beq_iff_eq] at hopen
        refine ⟨t, hreach hopen.1, ?_⟩
        rw [sceneUse?]
        cases hopen.2 with
        | inl hk => rw [hk, Tree.child?, hfind]
        | inr hk => rw [hk, Tree.child?, hfind]
    · obtain ⟨hopen, hfind⟩ := hargs h
      simp only [Spot.ahead, Bool.and_eq_true, Bool.not_eq_true', beq_iff_eq] at hopen
      exact ⟨t, hreach hopen.1, hopen.2, hfind⟩

theorem Stands.reaches (h : Stands root spot t) (hopen : spot.closed = false)
    (hu : Reaches (· == .classBody) t u) : ∃ q, Stands root q u ∧ q.closed = false := by
  induction hu generalizing spot with
  | here => exact ⟨spot, h, hopen⟩
  | @down t c u hskip hc _ ih =>
    obtain ⟨q, hq⟩ := exists_spot (w := spot.ahead t.kind) hc
    refine ih (h.child hq) ?_
    rw [(of_mem_spots hq).2.1, Spot.ahead, hopen, hskip]
    rfl

/-- The spots at which a `this` is the scene are its uses. -/
theorem stands_scene_iff : (∃ q, Stands root q u ∧ q.scene = true) ∧ u.kind = .thisExpression ↔
    SceneUse root u := by
  constructor
  · rintro ⟨⟨q, hq, hscene⟩, hthis⟩
    exact sceneUse_iff.mpr ⟨hq.sound.2.2.1 hscene, hthis⟩
  · intro h
    refine ⟨?_, (sceneUse_iff.mp h).2⟩
    cases h with
    | @object t ht hk hu =>
      obtain ⟨q, hq, hopen⟩ := Stands.here.reaches rfl ht
      obtain ⟨v, hv, hobject, -⟩ := spot_of_find (w := q.ahead t.kind) hu
      refine ⟨_, hq.child hv, ?_⟩
      simp [Ahead.spot, hobject rfl, Spot.ahead, hopen, hk]
    | @argument t as ht hk has hu =>
      obtain ⟨q, hq, hopen⟩ := Stands.here.reaches rfl ht
      obtain ⟨v, hv, -, harguments⟩ := spot_of_find (w := q.ahead t.kind) has
      cases hcs : as.children with
      | nil => simp [hcs] at hu
      | cons c cs =>
        rw [hcs] at hu
        obtain rfl := Option.some.inj hu
        let ahead := (Ahead.spot v .arguments).ahead as.kind
        have hfirst : (ahead.spot c.role, c) ∈ ahead.spots as.children := by
          rw [hcs, Ahead.spots]
          exact List.mem_cons_self
        refine ⟨_, (hq.child hv).child hfirst, ?_⟩
        simp [ahead, Ahead.spot, Spot.ahead, harguments rfl, hopen, hk]

mutual
/-- What is spelled as a rebound tree is that tree rebound. -/
theorem Spells.rebound : ∀ {t t' : Tree} {spot : Spot} {pos : Nat},
    Spells s' (s.rebound context spot pos t) t' → Rebound s s' context spot t t'
  | .node r k a b cs, t', spot, pos, h => by
    have hrole := h.role
    have hkind := h.kind
    have htext := h.text
    have hcs := h.children
    rw [Script.rebound] at hrole hkind htext hcs
    by_cases hscene : (spot.scene && k == .thisExpression) = true
    · rw [if_pos hscene] at hrole hkind htext hcs
      rw [Bool.and_eq_true, beq_iff_eq] at hscene
      refine .scene hscene.1 hscene.2 hrole hkind ?_ ?_
      · generalize t'.children = cs' at hcs
        cases hcs
        rfl
      · rw [textString, htext]
        simp [Phrase.text, Phrase.textAll]
    · rw [if_neg hscene] at hrole hkind htext hcs
      rw [Bool.and_eq_true, beq_iff_eq, not_and] at hscene
      refine .kept hscene hrole hkind ?_ (Spells.reboundAll hcs)
      intro hleaf
      obtain rfl : cs = [] := hleaf
      rw [htext]
      rfl

theorem Spells.reboundAll : ∀ {ts ts' : List Tree} {w : Ahead} {pos : Nat},
    List.Forall₂ (Spells s') (s.reboundAll context w pos ts) ts' →
      List.Forall₂ (fun c c' => Rebound s s' context c.1 c.2 c') (w.spots ts) ts'
  | [], ts', w, pos, h => by
    rw [Script.reboundAll, List.forall₂_nil_left_iff] at h
    subst h
    exact .nil
  | t :: ts, ts', w, pos, h => by
    rw [Script.reboundAll, List.forall₂_cons_left_iff] at h
    obtain ⟨t', ts'', ht, hts, rfl⟩ := h
    exact .cons ht.rebound (Spells.reboundAll hts)
end

theorem Rebound.role (h : Rebound s s' context spot t t') : t'.role = t.role := by
  cases h with
  | scene _ _ hrole => exact hrole
  | kept _ hrole => exact hrole

theorem Rebound.not_this (h : Rebound s s' context spot t t') (hspot : spot.scene = true) :
    t'.kind ≠ .thisExpression := by
  cases h with
  | scene _ _ _ hkind => simp [hkind]
  | kept hthis _ hkind => exact hkind ▸ hthis hspot

/-! ## No `this` is the scene any more -/

/-- No `this` that is reached in the tree is the scene. -/
def Settled (t : Tree) : Prop :=
  ∀ p u, Reaches (· == .classBody) t p → sceneUse? p = some u → u.kind ≠ .thisExpression

theorem sceneUses_of_settled (h : Settled t) : sceneUses t = [] := by
  rw [List.eq_nil_iff_forall_not_mem]
  intro u hu
  obtain ⟨⟨p, hp, huse⟩, hthis⟩ := sceneUse_iff.mp (mem_sceneUses.mp hu)
  exact h p u hp huse hthis

theorem settled_of_children (huse : sceneUse? t = none) (h : ∀ c ∈ t.children, Settled c) :
    Settled t := by
  intro p u hp hu
  cases hp with
  | here =>
    rw [huse] at hu
    cases hu
  | down _ hc hcp => exact h _ hc p u hcp hu

theorem Rebound.sceneUse (h : Rebound s s' context spot t t') (hopen : spot.closed = false)
    (hu : sceneUse? t' = some u') : u'.kind ≠ .thisExpression := by
  cases h with
  | scene _ _ _ hkind =>
    rw [sceneUse?, hkind] at hu
    cases hu
  | kept _ _ hkind _ hcs =>
    have hrole : ∀ spot c c', Rebound s s' context spot c c' → c'.role = c.role :=
      fun _ _ _ h => h.role
    have hobject (hk : t.kind = .memberExpression ∨ t.kind = .subscriptExpression)
        (hu : t'.child? .object = some u') : u'.kind ≠ .thisExpression := by
      obtain ⟨v, c, -, hrel, hv, -⟩ := find_of_spots hrole hcs hu
      refine hrel.not_this ?_
      simp [Ahead.spot, hv rfl, Spot.ahead, hopen, hk]
    rw [sceneUse?, hkind] at hu
    split at hu
    · exact hobject (.inl ‹_›) hu
    · exact hobject (.inr ‹_›) hu
    · rename_i hk
      obtain ⟨as', has, hhead⟩ := Option.bind_eq_some_iff.mp hu
      obtain ⟨v, as, -, hasRel, -, hv⟩ := find_of_spots hrole hcs has
      cases hasRel with
      | scene _ _ _ _ hleaf => simp [hleaf] at hhead
      | kept _ _ _ _ hargs =>
        cases hcs : as.children with
        | nil =>
          rw [hcs, Ahead.spots, List.forall₂_nil_left_iff] at hargs
          simp [hargs] at hhead
        | cons c cs =>
          rw [hcs, Ahead.spots, List.forall₂_cons_left_iff] at hargs
          obtain ⟨c', cs', hfirst, -, heq⟩ := hargs
          rw [heq] at hhead
          obtain rfl := Option.some.inj hhead
          refine hfirst.not_this ?_
          simp [Ahead.spot, Spot.ahead, hv rfl, hopen, hk]
    · cases hu

theorem Rebound.settled (h : Rebound s s' context spot t t') (hopen : spot.closed = false) :
    Settled t' := by
  intro p u hp hu
  induction hp generalizing t spot with
  | here => exact h.sceneUse hopen hu
  | @down t' c' p hskip hc _ ih =>
    cases h with
    | scene _ _ _ _ hleaf => simp [hleaf] at hc
    | kept _ _ hkind _ hcs =>
      obtain ⟨c, -, q, hq, hrel⟩ := exists_left_of_mem (forall₂_of_spots hcs) hc
      rw [hkind] at hskip
      refine ih hrel ?_ hu
      rw [(of_mem_spots hq).2.1, Spot.ahead, hopen, hskip]
      rfl

/-! ## What the grammar promises -/

/-- Names and `this` are tokens, and the arguments of a construction have no roles of their
own. -/
structure Lexical (t : Tree) : Prop where
  names : ∀ u ∈ t.preorder,
    u.kind = .identifier ∨ u.kind = .propertyIdentifier ∨ u.kind = .shorthandName →
      u.children = []
  receivers : ∀ u ∈ t.preorder, u.kind = .thisExpression → u.children = []
  arguments : ∀ u ∈ t.preorder, u.kind = .newExpression → ∀ as ∈ u.children,
    as.role = .arguments → ∀ c ∈ as.children, c.role = .plain

theorem lexical_iff : Lexical t ↔
    (∀ u ∈ t.preorder,
      u.kind = .identifier ∨ u.kind = .propertyIdentifier ∨ u.kind = .shorthandName →
        u.children = []) ∧
    (∀ u ∈ t.preorder, u.kind = .thisExpression → u.children = []) ∧
    ∀ u ∈ t.preorder, u.kind = .newExpression → ∀ as ∈ u.children,
      as.role = .arguments → ∀ c ∈ as.children, c.role = .plain :=
  ⟨fun ⟨h1, h2, h3⟩ => ⟨h1, h2, h3⟩, fun ⟨h1, h2, h3⟩ => ⟨h1, h2, h3⟩⟩

instance (t : Tree) : Decidable (Lexical t) := decidable_of_iff _ lexical_iff.symm

theorem Lexical.within (h : Lexical t) (hu : Contains t u) : Lexical u := by
  have hmem {v : Tree} (hv : v ∈ u.preorder) : v ∈ t.preorder :=
    mem_preorder.mpr (hu.trans (mem_preorder.mp hv))
  exact ⟨fun v hv => h.names v (hmem hv), fun v hv => h.receivers v (hmem hv),
    fun v hv => h.arguments v (hmem hv)⟩

theorem Lexical.namesAreTokens (h : Lexical t) : NamesAreTokens t := by
  intro u hu hkind
  refine h.names u (mem_preorder.mpr hu) ?_
  cases hkind with
  | inl hk => exact .inl hk
  | inr hk => exact .inr (.inl hk)

/-- A rebound tree is the tree that it comes from with names for some `this`. -/
theorem Rebound.recast {t t' : Tree} {spot : Spot} (ht : Lexical t)
    (h : Rebound s s' context spot t t')
    (hscene : spot.scene = true → t.role = .object ∨ t.role = .plain)
    (harguments : spot.arguments = true → ∀ c ∈ t.children, c.role = .plain) :
    Recast s s' context t t' := by
  cases h with
  | scene hspot hkind hrole hkind' hleaf' htext =>
    exact .scene (hscene hspot) hkind (ht.receivers t (mem_preorder.mpr (.here t)) hkind) hrole
      hkind' hleaf' htext
  | kept _ hrole hkind htext hcs =>
    refine .kept hrole hkind htext ?_
    refine (forall₂_of_spots hcs).imp fun c c' hc => ?_
    obtain ⟨q, hq, hrel⟩ := hc
    obtain ⟨hmem, -, hspot, hargs⟩ := of_mem_spots hq
    have := sizeOf_child_lt hmem
    refine hrel.recast (ht.within (contains_child hmem)) (fun h => ?_) fun h => ?_
    · cases hspot h with
      | inl hnext => exact .inr (harguments hnext.1 c hmem)
      | inr hobject => exact .inl (child?_role hobject.2)
    · obtain ⟨hahead, hfind⟩ := hargs h
      simp only [Spot.ahead, Bool.and_eq_true, beq_iff_eq] at hahead
      exact ht.arguments t (mem_preorder.mpr (.here t)) hahead.2 c hmem (child?_role hfind)
  termination_by sizeOf t

/-! ## What is published -/

/-- An assignment of a local to the member of its name of the scene: `this.name = name`. -/
inductive AssignsToScene (s : Script) (context name : String) (t : Tree) : Prop
  | member {l r receiver p : Tree} : t.kind = .assignmentExpression → t.child? .left = some l →
      l.kind = .memberExpression → l.child? .object = some receiver →
      receiver.kind = .thisExpression ∨
        receiver.kind = .identifier ∧ s.textString receiver = context →
      l.child? .property = some p → p.kind = .propertyIdentifier → s.textString p = name →
      t.child? .right = some r → r.kind = .identifier → s.textString r = name →
      AssignsToScene s context name t

/-- A declarator of a local that is initialised by `new`. -/
inductive DeclaresNew (s : Script) (name : String) (t : Tree) : Prop
  | new {n v : Tree} : t.kind = .variableDeclarator → t.child? .name = some n →
      n.kind = .identifier → s.textString n = name → t.child? .value = some v →
      v.kind = .newExpression → DeclaresNew s name t

theorem publication?_eq_some_iff {name : String} :
    s.publication? context t = some name ↔ AssignsToScene s context name t := by
  have htext {u v : Tree} : s.text u = s.text v ↔ s.textString u = s.textString v := by
    rw [textString, textString, String.ofList_inj]
  rw [publication?_eq]
  constructor
  · intro h
    split at h
    · rename_i hk
      obtain ⟨l, hl, h⟩ := Option.bind_eq_some_iff.mp h
      obtain ⟨r, hr, h⟩ := Option.bind_eq_some_iff.mp h
      split at h
      · rename_i hlr
        obtain ⟨receiver, ho, h⟩ := Option.bind_eq_some_iff.mp h
        obtain ⟨p, hp, h⟩ := Option.bind_eq_some_iff.mp h
        split at h
        · rename_i hscene
          obtain ⟨hreceiver, hpk, hpr⟩ := hscene
          have hname := Option.some.inj h
          rw [isScene, Bool.or_eq_true, Bool.and_eq_true, beq_iff_eq, beq_iff_eq,
            beq_iff_eq] at hreceiver
          exact .member hk hl hlr.1 ho hreceiver hp hpk ((htext.mp hpr).trans hname) hr hlr.2 hname
        · cases h
      · cases h
    · cases h
  · intro h
    cases h with
    | @member l r receiver p hk hl hlk ho hreceiver hp hpk hpname hr hrk hrname =>
      have hscene : s.isScene context receiver = true := by
        rw [isScene, Bool.or_eq_true, Bool.and_eq_true, beq_iff_eq, beq_iff_eq, beq_iff_eq]
        exact hreceiver
      simp [hk, hl, hlk, ho, hscene, hp, hpk, hr, hrk, hrname, htext, hpname]

theorem mem_instantiation_names {body : Tree} {name : String} :
    name ∈ (s.instantiations body).map (·.name) ↔
      ∃ t, Contains body t ∧ DeclaresNew s name t := by
  rw [instantiations, List.map_filterMap, List.mem_filterMap]
  refine exists_congr fun t => and_congr mem_preorder ?_
  rw [instantiation?_eq]
  constructor
  · intro h
    obtain ⟨i, hi, rfl⟩ := Option.map_eq_some_iff.mp h
    split at hi
    · rename_i hk
      obtain ⟨n, hn, hi⟩ := Option.bind_eq_some_iff.mp hi
      obtain ⟨v, hv, hi⟩ := Option.bind_eq_some_iff.mp hi
      split at hi
      · rename_i hnv
        obtain rfl := Option.some.inj hi
        exact .new hk hn hnv.1 rfl hv hnv.2
      · cases hi
    · cases hi
  · rintro ⟨hk, hn, hnk, hname, hv, hvk⟩
    simp [hk, hn, hnk, hname, hv, hvk]

/-- The script of the body of a function, rebound. -/
def reboundScript (s : Script) (context : String) (body : Tree) : Script :=
  (s.rebound context .inside body.start body).script s.dialect []

theorem reboundScript_rebound (s : Script) (context : String) (body : Tree) :
    Rebound s (s.reboundScript context body) context .inside body
      (s.reboundScript context body).tree :=
  (Phrase.spells_script _ _ _).rebound

/-- A body declares the same locals and publishes the same of them, in the same order,
whether it is rebound already or not: each of them once, and those that are initialised by
`new` somewhere in the body and assigned to a member of the scene somewhere in it. -/
theorem publication_of_rebound (s : Script) (context : String) (body : Tree)
    (hbody : Lexical body) :
    (∀ u, u ∈ sceneUses body ↔
      (∃ q, Stands body q u ∧ q.scene = true) ∧ u.kind = .thisExpression) ∧
    Rebound s (s.reboundScript context body) context .inside body
      (s.reboundScript context body).tree ∧
    sceneUses (s.reboundScript context body).tree = [] ∧
    ((s.reboundScript context body).instantiations (s.reboundScript context body).tree).map
      (·.name) = (s.instantiations body).map (·.name) ∧
    (s.reboundScript context body).publishedNames context (s.reboundScript context body).tree =
      s.publishedNames context body ∧
    (s.publishedNames context body).Nodup ∧
    ∀ name, name ∈ s.publishedNames context body ↔
      (∃ t, Contains body t ∧ AssignsToScene s context name t) ∧
      ∃ t, Contains body t ∧ DeclaresNew s name t := by
  have hrebound := s.reboundScript_rebound context body
  have hrecast := hrebound.recast hbody (by simp [Spot.inside]) (by simp [Spot.inside])
  have hnames := hbody.namesAreTokens
  refine ⟨fun u => mem_sceneUses.trans stands_scene_iff.symm, hrebound,
    sceneUses_of_settled (hrebound.settled rfl), hrecast.instantiation_names hnames,
    hrecast.publishedNames hnames, eraseDups_nodup _, fun name => ?_⟩
  rw [mem_publishedNames, mem_instantiation_names]
  simp only [publication?_eq_some_iff]

/-- The body of the function of a script that publishes what it constructs. -/
def heroBody : Tree :=
  (((typedScript heroSource).sites.head?.bind Site.body?).getD (.node .plain .program 0 0 []))

set_option maxRecDepth 100000 in
theorem publication_of_rebound_hero :
    Lexical heroBody ∧
      ((typedScript heroSource).reboundScript "scene" heroBody).source =
        "\x7b const hero = new Hero(scene); scene.hero = hero; \x7d".toList ∧
      ((typedScript heroSource).reboundScript "scene" heroBody).publishedNames "scene"
        ((typedScript heroSource).reboundScript "scene" heroBody).tree = ["hero"] := by
  obtain ⟨hbody, hsource, hnames⟩ : Lexical heroBody ∧
      ((typedScript heroSource).reboundScript "scene" heroBody).source =
        "\x7b const hero = new Hero(scene); scene.hero = hero; \x7d".toList ∧
      (typedScript heroSource).publishedNames "scene" heroBody = ["hero"] := by decide +kernel
  obtain ⟨-, -, -, -, hpublished, -⟩ :=
    publication_of_rebound (typedScript heroSource) "scene" heroBody hbody
  exact ⟨hbody, hsource, hpublished.trans hnames⟩

end SceneSync.Script
