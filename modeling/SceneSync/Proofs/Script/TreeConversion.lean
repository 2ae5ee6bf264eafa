import Mathlib
import SceneSync.Proofs.Script.Rebinding

/-!
# Conversion of a tree

The edits of the functions carried out on the tree of a script. A function that is not
exported is put into an export statement, the scene among the parameters of a function
that does not take it, and the scene's name in place of each `this` that is the scene.
-/

namespace SceneSync.Script

open Script.Tree

/-! ## The converted tree -/

namespace Phrase

def withRole (r : Role) : Phrase → Phrase
  | node _ k g cs w => node r k g cs w

@[simp] theorem withRole_text (r : Role) (p : Phrase) : (p.withRole r).text = p.text := by
  cases p
  rfl

mutual
/-- The kinds of the nodes, parents first. -/
def kinds : Phrase → List Kind
  | node _ k _ cs _ => k :: kindsAll cs

def kindsAll : List Phrase → List Kind
  | [] => []
  | p :: ps => kinds p ++ kindsAll ps
end

/-- The declaration of the scene behind a gap. It has a type in the typed dialect. -/
def scene (d : Dialect) (context : String) (type : Phrase) (gap : List Char) : Phrase :=
  if d.isTyped then
    .node .plain .requiredParameter gap [.node .pattern .identifier [] [] context.toList, type] []
  else .node .plain .identifier gap [] context.toList

/-- A declaration put among the parameters of a list. It comes first, behind the token `(`
of the list, or else behind a receiver. -/
def putScene (scene : List Char → Phrase) (receiver : Bool) : Phrase → Phrase
  | node r k g [] w => node r k g [scene (w.take 1)] (w.drop 1)
  | node r k g (p :: ps) w =>
    if receiver then node r k g (p :: scene ", ".toList :: ps) w
    else node r k g (scene (p.gap.take 1) :: p.withGap (", ".toList ++ p.gap.drop 1) :: ps) w

end Phrase

/-- The phrases of trees that stand one behind the other. -/
def inTurn (phrase : Nat → Tree → Phrase) (pos : Nat) : List Tree → List Phrase
  | [] => []
  | t :: ts => phrase pos t :: inTurn phrase t.stop ts

/-- The same with a phrase of its own for the first tree in a role. -/
def inTurnBut (r : Role) (first phrase : Nat → Tree → Phrase) (pos : Nat) :
    List Tree → List Phrase
  | [] => []
  | t :: ts =>
    if t.role == r then first pos t :: inTurn phrase t.stop ts
    else phrase pos t :: inTurnBut r first phrase t.stop ts

/-- The phrase of a tree with phrases for its children. -/
def around (s : Script) (pos : Nat) (t : Tree) (children : List Phrase) : Phrase :=
  .node t.role t.kind (s.between pos t.start) children
    (s.between (lastStop t.start t.children) t.stop)

/-- The parameter list of a function that takes the scene. -/
def listPhrase (s : Script) (o : ConversionOptions) (type : Phrase) (pos : Nat)
    (list : Tree) : Phrase :=
  let p := s.around pos list (inTurn (s.rebound o.context .inside) list.start list.children)
  if list.children.any (s.isSceneParameter o.context) then p
  else p.putScene (.scene s.dialect o.context type) (list.children.head?.any isReceiver)

/-- A function that takes the scene and has it for `this`. -/
def functionPhrase (s : Script) (o : ConversionOptions) (type : Phrase) (pos : Nat)
    (t : Tree) : Phrase :=
  s.around pos t
    (inTurnBut .parameters (s.listPhrase o type) (s.rebound o.context .inside) t.start t.children)

/-- The role of what an export statement exports by itself. -/
def exportedRole (t : Tree) : Role :=
  if (t.child? .declaration).isSome then .declaration else .value

/-- A statement with its function converted and exported. Outside of the functions
everything stays as it is. -/
def statementPhrase (s : Script) (o : ConversionOptions) (type : Phrase) (pos : Nat)
    (t : Tree) : Phrase :=
  match s.siteOf? t with
  | none => s.rebound o.context .outside pos t
  | some site =>
    if t.kind == .exportStatement then
      s.around pos t (inTurnBut (exportedRole t) (s.functionPhrase o type)
        (s.rebound o.context .outside) t.start t.children)
    else if site.exported then s.functionPhrase o type pos t
    else .node t.role .exportStatement (s.between pos t.start)
      [((s.functionPhrase o type t.start t).withRole .declaration).withGap "export ".toList] []

/-- The script with the edits of its functions carried out on its tree. -/
def carriedOut (s : Script) (o : ConversionOptions) (type : Phrase) : Script :=
  (s.around 0 s.tree (inTurn (s.statementPhrase o type) s.tree.start s.tree.children)).script
    s.dialect (Text.dropBytes s.tree.stop s.source)

/-- What a function comes to when it is converted, in whatever role. -/
def Carried (s s' : Script) (o : ConversionOptions) (type : Phrase) (t t' : Tree) : Prop :=
  ∃ r, Spells s' ((s.functionPhrase o type t.start t).withRole r) t'

variable {s : Script} {p : Phrase} {t : Tree} {ts ts' : List Tree}

/-! ## Phrases and what they spell -/

mutual
theorem Spells.kinds : ∀ {p : Phrase} {t : Tree}, Spells s p t →
    t.preorder.map Tree.kind = p.kinds
  | .node r k g cs w, .node r' k' a b ts, h => by
    have hkind : k' = k := h.kind
    have hcs : (preorderAll ts).map Tree.kind = Phrase.kindsAll cs := Spells.kindsAll h.children
    rw [Tree.preorder, List.map_cons, Phrase.kinds, hcs, Tree.kind, hkind]

theorem Spells.kindsAll : ∀ {ps : List Phrase} {ts : List Tree}, List.Forall₂ (Spells s) ps ts →
    (preorderAll ts).map Tree.kind = Phrase.kindsAll ps
  | [], [], _ => rfl
  | p :: ps, t :: ts, h => by
    obtain ⟨ht, hts⟩ := List.forall₂_cons.mp h
    rw [preorderAll, List.map_append, Phrase.kindsAll, ht.kinds, Spells.kindsAll hts]
end

theorem spells_withGap {g : List Char} : Spells s (p.withGap g) t ↔ Spells s p t := by
  obtain ⟨r, k, g', cs, w⟩ := p
  constructor
  · intro h
    exact .node h.role h.kind h.text h.children
  · intro h
    exact .node h.role h.kind h.text h.children

theorem spells_inTurn {phrase : Nat → Tree → Phrase} {pos : Nat}
    (h : List.Forall₂ (Spells s) (inTurn phrase pos ts) ts') :
    List.Forall₂ (fun t t' => ∃ pos, Spells s (phrase pos t) t') ts ts' := by
  induction ts generalizing pos ts' with
  | nil =>
    rw [inTurn, List.forall₂_nil_left_iff] at h
    subst h
    exact .nil
  | cons t ts ih =>
    rw [inTurn, List.forall₂_cons_left_iff] at h
    obtain ⟨t', ts'', ht, hts, rfl⟩ := h
    exact .cons ⟨pos, ht⟩ (ih hts)

theorem spells_inTurnBut {r : Role} {first phrase : Nat → Tree → Phrase} {pos : Nat}
    (h : List.Forall₂ (Spells s) (inTurnBut r first phrase pos ts) ts') :
    FirstApart (·.role == r) (fun t t' => ∃ pos, Spells s (first pos t) t')
      (fun t t' => ∃ pos, Spells s (phrase pos t) t') ts ts' := by
  induction ts generalizing pos ts' with
  | nil =>
    rw [inTurnBut, List.forall₂_nil_left_iff] at h
    subst h
    exact .nil
  | cons t ts ih =>
    rw [inTurnBut] at h
    cases hr : t.role == r with
    | true =>
      rw [if_pos hr, List.forall₂_cons_left_iff] at h
      obtain ⟨t', ts'', ht, hts, rfl⟩ := h
      exact .first hr ⟨pos, ht⟩ (spells_inTurn hts)
    | false =>
      rw [if_neg (by simp [hr]), List.forall₂_cons_left_iff] at h
      obtain ⟨t', ts'', ht, hts, rfl⟩ := h
      exact .other hr ⟨pos, ht⟩ (ih hts)

/-- A list that got a declaration has one more parameter, and the others are as they were. -/
theorem Spells.putScene {scene : List Char → Phrase} {receiver : Bool}
    (h : Spells s (p.putScene scene receiver) t) :
    t.role = p.role ∧ t.kind = p.kind ∧ ∃ gap u us, t.children.Perm (u :: us) ∧
      Spells s (scene gap) u ∧ List.Forall₂ (Spells s) p.children us := by
  obtain ⟨r, k, g, cs, w⟩ := p
  have hrole := h.role
  have hkind := h.kind
  have hcs := h.children
  cases cs with
  | nil =>
    rw [Phrase.putScene] at hrole hkind hcs
    obtain ⟨u, us, hu, hus, heq⟩ := List.forall₂_cons_left_iff.mp hcs
    exact ⟨hrole, hkind, _, u, us, heq ▸ .refl _, hu, hus⟩
  | cons q qs =>
    rw [Phrase.putScene] at hrole hkind hcs
    split at hrole
    · rename_i hreceiver
      rw [if_pos hreceiver] at hkind hcs
      obtain ⟨v, vs, hv, hvs, heq⟩ := List.forall₂_cons_left_iff.mp hcs
      obtain ⟨u, us, hu, hus, rfl⟩ := List.forall₂_cons_left_iff.mp hvs
      exact ⟨hrole, hkind, _, u, v :: us, heq ▸ .swap _ _ _, hu, .cons hv hus⟩
    · rename_i hreceiver
      rw [if_neg hreceiver] at hkind hcs
      obtain ⟨u, vs, hu, hvs, heq⟩ := List.forall₂_cons_left_iff.mp hcs
      obtain ⟨v, us, hv, hus, rfl⟩ := List.forall₂_cons_left_iff.mp hvs
      exact ⟨hrole, hkind, _, u, v :: us, heq ▸ .refl _, hu, .cons (spells_withGap.mp hv) hus⟩

/-! ## Children -/

theorem spots_still (c : Bool) (ts : List Tree) :
    Ahead.spots ⟨c, false, false, false⟩ ts = ts.map fun t => (⟨c, false, false⟩, t) := by
  induction ts with
  | nil => rfl
  | cons t ts ih =>
    rw [Ahead.spots, List.map_cons]
    exact congrArg _ ih

theorem exported?_eq (t : Tree) : exported? t = t.child? (exportedRole t) := by
  rw [exported?, exportedRole]
  cases hd : t.child? .declaration with
  | none => rfl
  | some d => exact hd.symm

end SceneSync.Script
