import Mathlib
import SceneSync.Proofs.Script.Reading.Parser
import SceneSync.Script.Instantiation

/-!
# How chains of names are spelled

The callee of a `new` expression is spelled as its names with points between them, and
blanks and comments around the points. A tree in which every callee is spelled so is
called sound here.
-/

namespace SceneSync.Script

variable {src : List Char} {ns gs : List (List Char)} {text g : List Char} {t u : Tree}
  {ts us : List Tree} {k : Kind} {r : Role} {a b : Nat}

/-- The text of a node. -/
def Tree.textIn (src : List Char) (t : Tree) : List Char :=
  Text.takeBytes (t.stop - t.start) (Text.dropBytes t.start src)

/-- The texts of the names of a chain of member accesses over an identifier. -/
def Tree.names? (src : List Char) : Tree → Option (List (List Char))
  | .node r .identifier a b cs => some [(Tree.node r .identifier a b cs).textIn src]
  | .node _ .memberExpression _ _ [object, property] =>
    if property.kind == .propertyIdentifier then
      (names? src object).map (· ++ [property.textIn src])
    else none
  | _ => none

/-- Names, the gaps on both sides of each point between them, and the text of it all. -/
inductive Spelling : List (List Char) → List (List Char) → List Char → Prop
  | name (n : List Char) : Spelling [n] [] n
  | member {ns gs : List (List Char)} {text g g' : List Char} (n : List Char) :
    Spelling ns gs text → Trivia g → Trivia g' →
      Spelling (ns ++ [n]) (gs ++ [g, g']) (text ++ (g ++ '.' :: (g' ++ n)))

/-- A text stands in the source from byte `a` to byte `b`. -/
def Spans (src : List Char) (a b : Nat) (text : List Char) : Prop :=
  ∃ front back, src = front ++ text ++ back ∧ a = width front ∧ b = width front + width text

/-- A node is a chain that is spelled where it stands. -/
def Spelled (src : List Char) (t : Tree) : Prop :=
  ∃ ns gs text, t.names? src = some ns ∧ Spelling ns gs text ∧ Spans src t.start t.stop text

theorem isMemberPath_eq (src : List Char) (t : Tree) :
    isMemberPath t = (t.names? src).isSome := by
  fun_induction isMemberPath t with
  | case1 => rfl
  | case2 r a b object property ih =>
    rw [Tree.names?]
    split <;> simp_all
  | case3 t hname hmember =>
    rw [Tree.names?.eq_def]
    split
    · exact absurd rfl (hname _ _ _ _)
    · exact absurd rfl (hmember _ _ _ _ _)
    · rfl

theorem Spans.textIn (h : Spans src t.start t.stop text) : t.textIn src = text := by
  obtain ⟨front, back, rfl, hstart, hstop⟩ := h
  rw [Tree.textIn, hstart, hstop, Nat.add_sub_cancel_left, List.append_assoc, dropBytes_width,
    takeBytes_width]

theorem append_inj_of_width {cs ds es fs : List Char} (h : cs ++ ds = es ++ fs)
    (hwidth : width cs = width es) : cs = es ∧ ds = fs := by
  have hdrop := dropBytes_width cs ds
  rw [h, hwidth, dropBytes_width] at hdrop
  subst hdrop
  exact ⟨List.append_cancel_right h, rfl⟩

/-- What follows a text goes on where the text ends. -/
theorem Spans.append {c : Nat} {more : List Char} (h : Spans src a b text)
    (hmore : Spans src b c more) : Spans src a c (text ++ more) := by
  obtain ⟨front, back, rfl, rfl, rfl⟩ := h
  obtain ⟨front', back', hsrc, hfront, rfl⟩ := hmore
  rw [List.append_assoc front'] at hsrc
  obtain ⟨rfl, rfl⟩ := append_inj_of_width hsrc (by rw [width_append]; exact hfront)
  exact ⟨front, back', by simp, rfl, by simp only [width_append]; omega⟩

theorem Remains.spans {n : Nat} {rest : List Char} (h : Remains src n (text ++ rest)) :
    Spans src n (n + width text) text := by
  obtain ⟨front, rfl, rfl⟩ := h
  exact ⟨front, rest, by simp, rfl, rfl⟩

/-! ## Sound trees -/

/-- What is constructed is spelled as a chain of names, if it is one. -/
def SpelledCallee (src : List Char) (t : Tree) : Prop :=
  ∃ c, t.child? .callee = some c ∧ (isMemberPath c = true → Spelled src c)

def Sound (src : List Char) (t : Tree) : Prop :=
  ∀ u ∈ t.preorder, u.kind = .newExpression → SpelledCallee src u

def AllSound (src : List Char) (ts : List Tree) : Prop := ∀ t ∈ ts, Sound src t

/-- A sound tree that is no chain of names. -/
structure Other (src : List Char) (t : Tree) : Prop where
  sound : Sound src t
  notName : t.kind ≠ .identifier
  notMember : t.kind ≠ .memberExpression

theorem Other.not_path (h : Other src t) : isMemberPath t = false := by
  obtain ⟨r, k, a, b, cs⟩ := t
  have hname : k ≠ .identifier := h.notName
  have hmember : k ≠ .memberExpression := h.notMember
  cases k <;> simp_all [isMemberPath]

@[simp] theorem start_withRole (r : Role) : (t.withRole r).start = t.start := by
  cases t
  rfl

@[simp] theorem stop_withRole (r : Role) : (t.withRole r).stop = t.stop := by
  cases t
  rfl

theorem mem_preorderAll : u ∈ Tree.preorderAll ts ↔ ∃ t ∈ ts, u ∈ t.preorder := by
  induction ts with
  | nil => simp [Tree.preorderAll]
  | cons t ts ih => simp [Tree.preorderAll, ih]

theorem sound_node : Sound src (.node r k a b ts) ↔
    (k = .newExpression → SpelledCallee src (.node r k a b ts)) ∧ AllSound src ts := by
  simp only [Sound, AllSound, Tree.preorder, List.forall_mem_cons, mem_preorderAll]
  refine and_congr Iff.rfl ⟨fun h t ht u hu => h u ⟨t, ht, hu⟩, ?_⟩
  rintro h u ⟨t, ht, hu⟩
  exact h t ht u hu

theorem Sound.children (h : Sound src t) : AllSound src t.children := by
  obtain ⟨r, k, a, b, ts⟩ := t
  exact (sound_node.mp h).2

@[simp] theorem allSound_nil : AllSound src [] := by simp [AllSound]

@[simp] theorem allSound_cons : AllSound src (t :: ts) ↔ Sound src t ∧ AllSound src ts := by
  simp [AllSound]

@[simp] theorem allSound_append : AllSound src (ts ++ us) ↔ AllSound src ts ∧ AllSound src us := by
  simp [AllSound, or_imp, forall_and]

@[simp] theorem sound_withRole : Sound src (t.withRole r) ↔ Sound src t := by
  obtain ⟨r', k, a, b, ts⟩ := t
  rw [Tree.withRole, sound_node, sound_node]
  rfl

theorem sound_withKind (hk : k ≠ .newExpression) (h : Sound src t) :
    Sound src (t.withKind k) := by
  obtain ⟨r, k', a, b, ts⟩ := t
  exact sound_node.mpr ⟨fun h => absurd h hk, (sound_node.mp h).2⟩

theorem sound_of_children (hk : k ≠ .newExpression) (hts : AllSound src ts) :
    Sound src (.node r k a b ts) := sound_node.mpr ⟨fun h => absurd h hk, hts⟩

namespace Reads

open Script.Parser

theorem close (hk : k ≠ .newExpression) (hts : AllSound src ts) :
    Reads src (Sound src) (close k a ts) :=
  .after (.looks _) fun _ => .pure (sound_of_children hk hts)

theorem close_other (hk : k ≠ .newExpression) (hname : k ≠ .identifier)
    (hmember : k ≠ .memberExpression) (hts : AllSound src ts) :
    Reads src (Other src) (Parser.close k a ts) :=
  .after (.looks _) fun _ => .pure ⟨sound_of_children hk hts, hname, hmember⟩

theorem leaf (hk : k ≠ .newExpression) : Reads src (Sound src) (leaf k) :=
  .after .start fun _ => .after .advance fun _ => .close hk allSound_nil

theorem leaf_other (hk : k ≠ .newExpression) (hname : k ≠ .identifier)
    (hmember : k ≠ .memberExpression) : Reads src (Other src) (Parser.leaf k) :=
  .after .start fun _ => .after .advance fun _ => .close_other hk hname hmember allSound_nil

theorem closeStatement (hk : k ≠ .newExpression) (hts : AllSound src ts) :
    Reads src (Sound src) (closeStatement k a ts) := by
  refine .after (.accept _) fun _ => .ite (.close hk hts) ?_
  refine .after .mayEnd fun _ => .after (.guardThat _) fun _ => .bind .here fun c _ => ?_
  exact .pure (sound_of_children hk hts)

theorem closeDeclaration (hk : k ≠ .newExpression) (hts : AllSound src ts) :
    Reads src (Sound src) (closeDeclaration k a ts) := by
  refine .bind .here fun c _ => .after .mayEnd fun _ => ?_
  exact .ite (.pure (sound_of_children hk hts)) (.close hk hts)

end Reads

end SceneSync.Script
