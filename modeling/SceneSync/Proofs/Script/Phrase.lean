import Mathlib
import SceneSync.Script.Source
import SceneSync.Text.Utf8

/-!
# Phrases

A tree that carries its own words, and needs no source to be read: the words between its
nodes stand in it where they stand in the text. Nodes can be put into a phrase, taken out
and exchanged; laid out from a byte on it is a tree of the text that it spells.
-/

namespace SceneSync.Script

open Script.Tree

inductive Phrase where
  /-- The gap stands before the node, behind its left neighbour; the tail is what is left of
  the node behind its last child. -/
  | node (role : Role) (kind : Kind) (gap : List Char) (children : List Phrase) (tail : List Char)

namespace Phrase

def role : Phrase → Role
  | node r _ _ _ _ => r

def kind : Phrase → Kind
  | node _ k _ _ _ => k

def gap : Phrase → List Char
  | node _ _ g _ _ => g

def children : Phrase → List Phrase
  | node _ _ _ cs _ => cs

def withGap (g : List Char) : Phrase → Phrase
  | node r k _ cs w => node r k g cs w

mutual
/-- The words of a node, without the gap before it. -/
def text : Phrase → List Char
  | node _ _ _ cs w => textAll cs ++ w

def textAll : List Phrase → List Char
  | [] => []
  | p :: ps => p.gap ++ text p ++ textAll ps
end

@[simp] theorem withGap_gap (g : List Char) (p : Phrase) : (p.withGap g).gap = g := by
  cases p
  rfl

@[simp] theorem withGap_text (g : List Char) (p : Phrase) : (p.withGap g).text = p.text := by
  cases p
  rfl

mutual
/-- The tree of a phrase whose gap begins at a byte. -/
def layOut (pos : Nat) : Phrase → Tree
  | node r k g cs w =>
    let start := pos + width g
    .node r k start (start + width (textAll cs ++ w)) (layOutAll start cs)

def layOutAll (pos : Nat) : List Phrase → List Tree
  | [] => []
  | p :: ps => layOut pos p :: layOutAll (pos + width (p.gap ++ p.text)) ps
end

/-- The script that a phrase spells, with what stands behind its tree. -/
def script (p : Phrase) (d : Dialect) (rest : List Char) : Script :=
  ⟨d, p.gap ++ p.text ++ rest, p.layOut 0⟩

end Phrase

/-- A tree that is read in the source as a phrase says. -/
inductive Spells (s : Script) : Phrase → Tree → Prop
  | node {p : Phrase} {t : Tree} : t.role = p.role → t.kind = p.kind → s.text t = p.text →
      List.Forall₂ (Spells s) p.children t.children → Spells s p t

variable {s : Script} {p : Phrase} {t : Tree}

theorem Spells.role (h : Spells s p t) : t.role = p.role := by
  cases h with
  | node hrole => exact hrole

theorem Spells.kind (h : Spells s p t) : t.kind = p.kind := by
  cases h with
  | node _ hkind => exact hkind

theorem Spells.text (h : Spells s p t) : s.text t = p.text := by
  cases h with
  | node _ _ htext => exact htext

theorem Spells.children (h : Spells s p t) : List.Forall₂ (Spells s) p.children t.children := by
  cases h with
  | node _ _ _ hcs => exact hcs

/-! ## Bytes and characters -/

theorem foldl_width (cs : List Char) (n : Nat) :
    cs.foldl (fun n c => n + c.utf8Size) n = n + width cs := by
  induction cs generalizing n with
  | nil => rfl
  | cons c cs ih =>
    rw [width, List.foldl_cons, List.foldl_cons, ih, ih (0 + c.utf8Size)]
    omega

@[simp] theorem width_nil : width [] = 0 := rfl

@[simp] theorem width_cons (c : Char) (cs : List Char) :
    width (c :: cs) = c.utf8Size + width cs := by
  rw [width, List.foldl_cons, foldl_width, Nat.zero_add]

@[simp] theorem width_append (cs ds : List Char) : width (cs ++ ds) = width cs + width ds := by
  rw [width, List.foldl_append, foldl_width, ← width]

theorem length_encode (cs : List Char) : (Text.encode cs).length = width cs := by
  induction cs with
  | nil => rfl
  | cons c cs ih =>
    have hcons : Text.encode (c :: cs) = String.utf8EncodeChar c ++ Text.encode cs := rfl
    rw [hcons, List.length_append, ih, width_cons, String.length_utf8EncodeChar]

theorem exists_utf8Size (c : Char) : ∃ n, c.utf8Size = n + 1 :=
  Nat.exists_eq_succ_of_ne_zero (Nat.ne_of_gt c.utf8Size_pos)

theorem dropBytes_width (front cs : List Char) :
    Text.dropBytes (width front) (front ++ cs) = cs := by
  induction front with
  | nil => rw [width_nil, Text.dropBytes, List.nil_append]
  | cons c front ih =>
    obtain ⟨n, hn⟩ := exists_utf8Size c
    have hwidth : width (c :: front) = n + width front + 1 := by
      rw [width_cons, hn]
      omega
    rw [hwidth, List.cons_append, Text.dropBytes, hn]
    simpa [Nat.add_right_comm] using ih

theorem takeBytes_width (cs back : List Char) :
    Text.takeBytes (width cs) (cs ++ back) = cs := by
  induction cs with
  | nil => rw [width_nil, Text.takeBytes]
  | cons c cs ih =>
    obtain ⟨n, hn⟩ := exists_utf8Size c
    have hwidth : width (c :: cs) = n + width cs + 1 := by
      rw [width_cons, hn]
      omega
    rw [hwidth, List.cons_append, Text.takeBytes, hn]
    simpa [Nat.add_right_comm] using ih

/-- A node whose span is where its words stand has them as its text. -/
theorem text_of_split {front cs back : List Char} (h : s.source = front ++ cs ++ back)
    {t : Tree} (hstart : t.start = width front) (hstop : t.stop = width front + width cs) :
    s.text t = cs := by
  rw [Script.text, h, hstart, hstop, Nat.add_sub_cancel_left, List.append_assoc, dropBytes_width,
    takeBytes_width]

/-! ## The layout -/

mutual
/-- A phrase is spelled where it is laid out, when the source has its words there. -/
theorem spells_layOut : ∀ (p : Phrase) (front back : List Char),
    s.source = front ++ (p.gap ++ p.text) ++ back → Spells s p (p.layOut (width front))
  | .node r k g cs w, front, back, h => by
    have htext : s.source = (front ++ g) ++ (Phrase.textAll cs ++ w) ++ back := by
      rw [h, Phrase.gap, Phrase.text]
      simp only [List.append_assoc]
    have hchildren : s.source = (front ++ g) ++ Phrase.textAll cs ++ (w ++ back) := by
      rw [htext]
      simp only [List.append_assoc]
    refine .node rfl rfl ?_ ?_
    · exact text_of_split htext (width_append _ _).symm (by
        rw [width_append]
        rfl)
    · rw [Phrase.layOut, ← width_append]
      exact spells_layOutAll cs _ _ hchildren

theorem spells_layOutAll : ∀ (ps : List Phrase) (front back : List Char),
    s.source = front ++ Phrase.textAll ps ++ back →
      List.Forall₂ (Spells s) ps (Phrase.layOutAll (width front) ps)
  | [], _, _, _ => .nil
  | p :: ps, front, back, h => by
    have hfirst : s.source = front ++ (p.gap ++ p.text) ++ (Phrase.textAll ps ++ back) := by
      rw [h, Phrase.textAll]
      simp only [List.append_assoc]
    have hrest : s.source = (front ++ (p.gap ++ p.text)) ++ Phrase.textAll ps ++ back := by
      rw [hfirst]
      simp only [List.append_assoc]
    rw [Phrase.layOutAll, ← width_append]
    exact .cons (spells_layOut p _ _ hfirst) (spells_layOutAll ps _ _ hrest)
end

/-- The tree of the script of a phrase is what the phrase says. -/
theorem Phrase.spells_script (p : Phrase) (d : Dialect) (rest : List Char) :
    Spells (p.script d rest) p (p.script d rest).tree :=
  spells_layOut p [] rest rfl

end SceneSync.Script
