import Mathlib
import SceneSync.Proofs.Script.Nesting
import SceneSync.Proofs.Script.Forming.Places
import SceneSync.Proofs.Script.Reading.Spelling

/-!
# The shape of trees

What the grammar makes of a node: where its span begins and ends, which nodes are tokens,
and which parts a function, a list of parameters, a construction and an export have. A tree
with nested spans and such nodes is called formed.
-/

namespace SceneSync.Script

open Script.Tree

variable {src : List Char} {dialect : Dialect} {t u : Tree} {ts us : List Tree} {k : Kind}
  {r : Role} {a b n m : Nat}

/-- A part of a function. Its name is a token other than `this`. -/
structure PartOfFunction (c : Tree) : Prop where
  name : c.role = .name → c.children = [] ∧ c.kind ≠ .thisExpression
  parameters : c.role = .parameters → c.kind = .formalParameters

/-- What the grammar makes of the parts of a node from byte `a` to byte `b`. -/
def Parts (src : List Char) (dialect : Dialect) (k : Kind) (a b : Nat) (ts : List Tree) : Prop :=
  match k with
  | .identifier | .propertyIdentifier | .shorthandName => ts = []
  | .thisExpression => ts = [] ∧ a < b ∧ Solid src (b - 1)
  | .functionDeclaration | .generatorFunctionDeclaration | .functionSignature
  | .functionExpression => Begun src a b ∧ ∀ c ∈ ts, PartOfFunction c
  | .exportSpecifier | .typeAliasDeclaration =>
    ∀ c ∈ ts, c.role = .name → c.children = [] ∧ c.kind ≠ .thisExpression
  -- parentheses of one byte each stand around the parameters
  | .formalParameters => (Text.encode src)[a]? = some 40 ∧ a + 2 ≤ b ∧
      Ordered (a + 1) (b - 1) ts ∧ (Text.encode src)[b - 1]? = some 41
  | .requiredParameter | .optionalParameter => dialect = .typed
  | .arguments => ∀ c ∈ ts, c.role = .plain
  | .newExpression => ∀ c ∈ ts, c.role = .arguments → c.kind = .arguments
  -- what lists names declares nothing
  | .exportStatement => ∀ c ∈ ts, c.kind = .exportClause →
      ∀ d ∈ ts, d.role ≠ .declaration ∧ d.role ≠ .value
  | _ => True

/-- The kinds of which `Parts` asks nothing, other than a list of exported names. -/
def isFree : Kind → Bool
  | .identifier | .propertyIdentifier | .shorthandName | .thisExpression | .functionDeclaration
  | .generatorFunctionDeclaration | .functionSignature | .functionExpression | .exportSpecifier
  | .typeAliasDeclaration | .formalParameters | .requiredParameter | .optionalParameter
  | .arguments | .newExpression | .exportStatement | .exportClause => false
  | _ => true

/-- The kinds of which `Parts` asks nothing where there are no parts. -/
def isTokenKind : Kind → Bool
  | .identifier | .propertyIdentifier | .shorthandName => true
  | k => isFree k

theorem parts_of_isFree (h : isFree k = true) : Parts src dialect k a b ts := by
  cases k <;> trivial

theorem parts_of_isTokenKind (h : isTokenKind k = true) : Parts src dialect k a b [] := by
  cases k <;> trivial

theorem ne_exportClause_of_isTokenKind (h : isTokenKind k = true) : k ≠ .exportClause := by
  rintro rfl
  cases h

theorem isTokenKind_of_isFree (h : isFree k = true) : isTokenKind k = true := by
  cases k <;> trivial

/-- A node with its span between character boundaries and the parts of its kind. -/
structure Shape (src : List Char) (dialect : Dialect) (t : Tree) : Prop where
  start : Text.Boundary src t.start
  stop : Text.Boundary src t.stop
  parts : Parts src dialect t.kind t.start t.stop t.children

structure Formed (src : List Char) (dialect : Dialect) (t : Tree) : Prop where
  nested : t.WellNested
  shapes : ∀ u ∈ t.preorder, Shape src dialect u

/-! ## Nodes -/

theorem shape_withRole : Shape src dialect (t.withRole r) ↔ Shape src dialect t := by
  obtain ⟨r', k, a, b, ts⟩ := t
  exact ⟨fun h => ⟨h.start, h.stop, h.parts⟩, fun h => ⟨h.start, h.stop, h.parts⟩⟩

theorem formed_node : Formed src dialect (.node r k a b ts) ↔
    Ordered a b ts ∧ Shape src dialect (.node r k a b ts) ∧ ∀ t ∈ ts, Formed src dialect t := by
  constructor
  · rintro ⟨hnested, hshapes⟩
    have hordered : Ordered a b ts := hnested
    refine ⟨hordered, hshapes _ (by simp [preorder]), fun t ht => ?_⟩
    refine ⟨(hordered.mem ht).2.1, fun u hu => hshapes u ?_⟩
    exact List.mem_cons_of_mem _ (mem_preorderAll.mpr ⟨t, ht, hu⟩)
  · rintro ⟨hordered, hshape, hformed⟩
    refine ⟨hordered, fun u hu => ?_⟩
    rcases List.mem_cons.mp hu with rfl | hu
    · exact hshape
    · obtain ⟨t, ht, hu⟩ := mem_preorderAll.mp hu
      exact (hformed t ht).shapes u hu

theorem Formed.shape (h : Formed src dialect t) : Shape src dialect t :=
  h.shapes t (mem_preorder.mpr (.here t))

theorem Formed.children (h : Formed src dialect t) : ∀ c ∈ t.children, Formed src dialect c := by
  obtain ⟨r, k, a, b, ts⟩ := t
  exact (formed_node.mp h).2.2

@[simp] theorem formed_withRole : Formed src dialect (t.withRole r) ↔ Formed src dialect t := by
  obtain ⟨r', k, a, b, ts⟩ := t
  rw [Tree.withRole, formed_node, formed_node]
  exact and_congr_right fun _ => and_congr_left fun _ =>
    shape_withRole (t := .node r' k a b ts) (r := r)

/-! ## Spans in order -/

theorem Tree.Ordered.last_le (h : Ordered a b ts) : lastStop a ts ≤ b := by
  have h' : Ordered a b (ts ++ []) := by rwa [List.append_nil]
  exact h'.append.2

/-- The last of the trees bounds them all. -/
theorem Tree.Ordered.upto (h : Ordered a b ts) (hlast : lastStop a ts ≤ m) : Ordered a m ts := by
  have h' : Ordered a b (ts ++ []) := by rwa [List.append_nil]
  exact h'.append.1.mono hlast

theorem Tree.Ordered.mono_start (h : Ordered a b ts) (hle : m ≤ a) : Ordered m b ts := by
  cases ts with
  | nil => exact hle.trans h
  | cons t ts => exact ⟨hle.trans h.1, h.2⟩

theorem Tree.Ordered.concat (h : Ordered a b ts) (h' : Ordered b n us) :
    Ordered a n (ts ++ us) := by
  induction ts generalizing a with
  | nil => exact h'.mono_start h
  | cons u us ih => exact ⟨h.1, h.2.1, ih h.2.2⟩

theorem Tree.Ordered.snoc (h : Ordered a b ts) (hstart : b ≤ t.start) (ht : t.WellNested)
    (hstop : t.stop ≤ m) : Ordered a m (ts ++ [t]) :=
  h.concat ⟨hstart, ht, hstop⟩

/-- A tree without the role that it plays. -/
def Tree.bare (t : Tree) : Tree := t.withRole .plain

@[simp] theorem bare_withRole : (t.withRole r).bare = t.bare := by
  cases t
  rfl

theorem ordered_bare : Ordered a b (ts.map Tree.bare) ↔ Ordered a b ts := by
  induction ts generalizing a with
  | nil => exact Iff.rfl
  | cons t ts ih =>
    rw [List.map_cons, Ordered, Ordered, ih, Tree.bare, start_withRole, stop_withRole]
    obtain ⟨r, k, x, y, cs⟩ := t
    exact Iff.rfl

theorem formed_of_bare (hsame : us.map Tree.bare = ts.map Tree.bare)
    (h : ∀ t ∈ ts, Formed src dialect t) : ∀ u ∈ us, Formed src dialect u := by
  intro u hu
  have hbare := List.mem_map_of_mem (f := Tree.bare) hu
  rw [hsame, List.mem_map] at hbare
  obtain ⟨t, ht, heq⟩ := hbare
  have hformed := formed_withRole (r := .plain).mpr (h t ht)
  rw [show t.withRole .plain = u.withRole .plain from heq] at hformed
  exact formed_withRole.mp hformed

end SceneSync.Script
