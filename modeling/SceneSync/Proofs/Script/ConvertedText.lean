import Mathlib
import SceneSync.Proofs.Script.ParameterConflicts
import SceneSync.Proofs.Script.SecondConversion
import SceneSync.Proofs.Script.TreeConversion

/-!
# The text of a converted tree

A tree that is converted node by node spells the text that the edits of the script make:
what is put into the tree, or exchanged in it, is put in and exchanged where the edits say.
-/

namespace SceneSync.Script

open Script.Tree

/-- What stands for a range of the source when edits are made in it, from left to right. -/
inductive Writes (s : Script) : Nat → Nat → List Edit → List Char → Prop
  | kept {a b : Nat} : a ≤ b → Text.Boundary s.source a → Text.Boundary s.source b →
      Writes s a b [] (s.between a b)
  | replaced {a b : Nat} (text : List Char) : a < b →
      Writes s a b [⟨a, b, Text.encode text⟩] text
  /-- Something is put before what is left of a node, which is more than nothing. -/
  | inserted {a b : Nat} {edits : List Edit} {cs : List Char} (text : List Char) : a < b →
      (∀ e ∈ edits, (a : Int) < e.stop) → Writes s a b edits cs →
      Writes s a b (⟨a, a, Text.encode text⟩ :: edits) (text ++ cs)
  | append {a b c : Nat} {edits edits' : List Edit} {cs ds : List Char} :
      Writes s a b edits cs → Writes s b c edits' ds →
      Writes s a c (edits ++ edits') (cs ++ ds)

/-- A range of the source comes to a text by the edits of a kind, made from left to right. -/
def Makes (s : Script) (a b : Nat) (cs : List Char) (P : Edit → Prop) : Prop :=
  ∃ edits, Writes s a b edits cs ∧ ∀ e, e ∈ edits ↔ P e

/-- A `this` that is the scene, below a node at a spot. -/
inductive Used : Spot → Tree → Tree → Prop
  | here {p : Spot} {t : Tree} : p.scene = true → t.kind = .thisExpression → Used p t t
  | child {p q : Spot} {t c u : Tree} : (p.scene = true → t.kind ≠ .thisExpression) →
      (q, c) ∈ (p.ahead t.kind).spots t.children → Used q c u → Used p t u

/-- The edit that puts the scene's name in place of a `this`. -/
def UseEdit (context : String) (p : Spot) (t : Tree) (e : Edit) : Prop :=
  ∃ u, Used p t u ∧ e = ⟨u.start, u.stop, bytesOf context⟩

variable {s : Script} {o : ConversionOptions} {context : String} {spot : Spot} {w : Ahead}
  {P Q : Edit → Prop} {type : Phrase} {a b c : Nat}
  {edits edits' : List Edit} {cs ds : List Char} {t u : Tree} {ts : List Tree}

/-! ## Bytes -/

/-- Two boundaries cut a source into three. -/
theorem split_of_boundaries (hab : a ≤ b) (ha : Text.Boundary s.source a)
    (hb : Text.Boundary s.source b) : ∃ front cs back, s.source = front ++ cs ++ back ∧
      width front = a ∧ width front + width cs = b := by
  obtain ⟨front, rest, hsource, hfront⟩ := ha
  obtain ⟨front', back, hsource', hfront'⟩ := hb
  rw [length_encode] at hfront hfront'
  cases List.prefix_or_prefix_of_prefix (hsource ▸ List.prefix_append front rest)
      (hsource' ▸ List.prefix_append front' back) with
  | inl hprefix =>
    obtain ⟨cs, rfl⟩ := hprefix
    rw [width_append] at hfront'
    exact ⟨front, cs, back, hsource', hfront, hfront'⟩
  | inr hprefix =>
    -- The second boundary is not before the first, so nothing stands between them.
    obtain ⟨cs, rfl⟩ := hprefix
    rw [width_append] at hfront
    cases cs with
    | nil =>
      refine ⟨front', [], back, by simpa using hsource', by simpa using hfront, ?_⟩
      rw [width_nil, Nat.add_zero, hfront']
    | cons c cs =>
      have := c.utf8Size_pos
      rw [width_cons] at hfront
      omega

theorem between_of_split {front back : List Char} (h : s.source = front ++ cs ++ back) :
    s.between (width front) (width front + width cs) = cs := by
  rw [between, h, Nat.add_sub_cancel_left, List.append_assoc, dropBytes_width, takeBytes_width]

theorem encode_between (hab : a ≤ b) (ha : Text.Boundary s.source a)
    (hb : Text.Boundary s.source b) :
    Text.encode (s.between a b) = ((Text.encode s.source).take b).drop a := by
  obtain ⟨front, cs, back, hsource, rfl, rfl⟩ := split_of_boundaries hab ha hb
  have htake : (Text.encode s.source).take (width front + width cs) =
      Text.encode front ++ Text.encode cs := by
    rw [hsource, Text.encode_append, Text.encode_append]
    exact List.take_left' (by simp [length_encode])
  rw [between_of_split hsource, htake]
  exact (List.drop_left' (length_encode front)).symm

/-- What stands between two bytes is what stands before and behind one between them. -/
theorem between_append (hab : a ≤ b) (hbc : b ≤ c) (ha : Text.Boundary s.source a)
    (hb : Text.Boundary s.source b) (hc : Text.Boundary s.source c) :
    s.between a b ++ s.between b c = s.between a c := by
  refine Text.encode_injective ?_
  rw [Text.encode_append, encode_between hab ha hb, encode_between hbc hb hc,
    encode_between (Nat.le_trans hab hbc) ha hc]
  have htake : (Text.encode s.source).take b = ((Text.encode s.source).take c).take b := by
    rw [List.take_take, Nat.min_eq_left hbc]
  rw [htake, ← Edit.drop_eq_append _ hab]

theorem Writes.bounds (h : Writes s a b edits cs) : a ≤ b ∧
    ∀ e ∈ edits, (a : Int) ≤ e.start ∧ e.start ≤ e.stop ∧ e.stop ≤ b ∧ e.start < b := by
  induction h with
  | kept hab => exact ⟨hab, by simp⟩
  | replaced text hab =>
    refine ⟨by omega, fun e he => ?_⟩
    rw [List.mem_singleton.mp he]
    simp only
    omega
  | inserted text hab _ _ ih =>
    refine ⟨by omega, fun e he => ?_⟩
    cases he with
    | head =>
      simp only
      omega
    | tail _ he => exact ih.2 e he
  | append _ _ ih ih' =>
    refine ⟨by omega, fun e he => ?_⟩
    cases List.mem_append.mp he with
    | inl he =>
      have := ih.2 e he
      omega
    | inr he =>
      have := ih'.2 e he
      omega

theorem Writes.sorted (h : Writes s a b edits cs) : edits.Pairwise Edit.Precedes := by
  induction h with
  | kept => exact .nil
  | replaced => exact List.pairwise_singleton _ _
  | inserted text hab hstop h ih =>
    refine List.pairwise_cons.mpr ⟨fun e he => ?_, ih⟩
    have := h.bounds.2 e he
    have := hstop e he
    unfold Edit.Precedes Edit.SamePlace
    simp only
    omega
  | append h h' ih ih' =>
    refine List.pairwise_append.mpr ⟨ih, ih', fun e he f hf => ?_⟩
    have := h.bounds.2 e he
    have := h'.bounds.2 f hf
    unfold Edit.Precedes Edit.SamePlace
    omega

/-- What is written is the splice of the edits. -/
theorem Writes.splice_eq (h : Writes s a b edits cs) :
    Edit.splice ((Text.encode s.source).take b) a edits = Text.encode cs := by
  induction h with
  | kept hab ha hb => rw [Edit.splice, encode_between hab ha hb]
  | replaced text hab =>
    simp [Edit.splice]
  | inserted text hab _ _ ih =>
    rw [Edit.splice, Text.encode_append, ← ih]
    simp
  | @append a b c _ _ _ _ h h' ih ih' =>
    have hle := h'.bounds.1
    rw [Edit.splice_append h.bounds.1 h.sorted, List.take_take, Nat.min_eq_left hle, ih, ih',
      Text.encode_append]
    · intro e he
      have := h.bounds.2 e he
      omega
    · intro f hf
      exact (h'.bounds.2 f hf).1

/-! ## Ranges and the edits in them -/

theorem Makes.congr (h : Makes s a b cs P) (hPQ : ∀ e, P e ↔ Q e) : Makes s a b cs Q := by
  obtain ⟨edits, hwrites, hmem⟩ := h
  exact ⟨edits, hwrites, fun e => (hmem e).trans (hPQ e)⟩

theorem makes_kept (hab : a ≤ b) (ha : Text.Boundary s.source a)
    (hb : Text.Boundary s.source b) : Makes s a b (s.between a b) fun _ => False :=
  ⟨[], .kept hab ha hb, by simp⟩

theorem Makes.append (h : Makes s a b cs P) (h' : Makes s b c ds Q) :
    Makes s a c (cs ++ ds) fun e => P e ∨ Q e := by
  obtain ⟨edits, hwrites, hmem⟩ := h
  obtain ⟨edits', hwrites', hmem'⟩ := h'
  exact ⟨edits ++ edits', hwrites.append hwrites', fun e => by
    rw [List.mem_append, hmem, hmem']⟩

theorem Makes.insert (text : List Char) (h : Makes s a b cs P) (hab : a < b)
    (hP : ∀ e, P e → (a : Int) < e.stop) :
    Makes s a b (text ++ cs) fun e => e = ⟨a, a, Text.encode text⟩ ∨ P e := by
  obtain ⟨edits, hwrites, hmem⟩ := h
  refine ⟨_, hwrites.inserted text hab fun e he => hP e ((hmem e).mp he), fun e => ?_⟩
  rw [List.mem_cons, hmem]

theorem Makes.keep_before (h : Makes s b c cs P) (hab : a ≤ b) (ha : Text.Boundary s.source a)
    (hb : Text.Boundary s.source b) : Makes s a c (s.between a b ++ cs) P :=
  ((makes_kept hab ha hb).append h).congr fun e => by simp

/-! ## The scene in place of `this` -/

mutual
theorem makes_rebound (hs : s.Regular) : ∀ {t : Tree} {spot : Spot} {pos : Nat},
    Contains s.tree t → pos ≤ t.start → Text.Boundary s.source pos →
      Makes s pos t.stop ((s.rebound context spot pos t).gap ++ (s.rebound context spot pos t).text)
        (UseEdit context spot t)
  | .node r k a b cs, spot, pos, ht, hpos, hb => by
    obtain ⟨ha, hstop⟩ := hs.boundary ht
    rw [Script.rebound]
    by_cases hscene : (spot.scene && k == .thisExpression) = true
    · rw [if_pos hscene]
      rw [Bool.and_eq_true, beq_iff_eq] at hscene
      have htoken := (hs.tokens _ (mem_preorder.mpr ht) hscene.2).2
      have hmakes : Makes s a b context.toList fun e => e = ⟨a, b, bytesOf context⟩ :=
        ⟨_, .replaced context.toList htoken, fun e => List.mem_singleton⟩
      refine (hmakes.keep_before hpos hb ha).congr fun e => ?_
      constructor
      · rintro rfl
        exact ⟨_, .here hscene.1 hscene.2, rfl⟩
      · rintro ⟨u, hu, rfl⟩
        cases hu with
        | here => rfl
        | child hnot => exact absurd hscene.2 (hnot hscene.1)
    · rw [if_neg hscene]
      rw [Bool.and_eq_true, beq_iff_eq, not_and] at hscene
      have hchildren := makes_reboundAll hs (w := spot.ahead k)
        (fun c hc => ht.trans (contains_child hc)) (hs.nested.contains ht).2.1.children ha hstop
      refine (hchildren.keep_before hpos hb ha).congr fun e => ?_
      constructor
      · rintro ⟨p, hp, u, hu, rfl⟩
        exact ⟨u, .child hscene hp hu, rfl⟩
      · rintro ⟨u, hu, rfl⟩
        cases hu with
        | here hspot hthis => exact absurd hthis (hscene hspot)
        | child _ hp hu => exact ⟨_, hp, u, hu, rfl⟩

theorem makes_reboundAll (hs : s.Regular) : ∀ {ts : List Tree} {w : Ahead} {pos stop : Nat},
    (∀ t ∈ ts, Contains s.tree t) → Ordered pos stop ts → Text.Boundary s.source pos →
      Text.Boundary s.source stop →
        Makes s pos stop (Phrase.textAll (s.reboundAll context w pos ts) ++
            s.between (lastStop pos ts) stop)
          fun e => ∃ p ∈ w.spots ts, UseEdit context p.1 p.2 e
  | [], w, pos, stop, _, hordered, hpos, hstop =>
    (makes_kept hordered hpos hstop).congr fun e => by simp [Ahead.spots]
  | t :: ts, w, pos, stop, hts, hordered, hpos, hstop => by
    have ht := hts t (by simp)
    have hfirst : Makes s pos t.stop _ (UseEdit context (w.spot t.role) t) :=
      makes_rebound hs ht hordered.1 hpos
    have hrest := makes_reboundAll hs (w := w.behind t.role)
      (fun c hc => hts c (by simp [hc])) hordered.2.2 (hs.boundary ht).2 hstop
    rw [Script.reboundAll, Phrase.textAll, lastStop_cons, List.append_assoc]
    refine (hfirst.append hrest).congr fun e => ?_
    simp only [Ahead.spots, List.mem_cons, exists_eq_or_imp]
end

/-- A `this` in a site is used below it where the walk down to it says so. -/
theorem used_iff (hs : s.Regular) (ht : Contains s.tree t) :
    Used .inside t u ↔ SceneUse t u := by
  rw [← stands_scene_iff]
  constructor
  · suffices hbelow : ∀ {spot v}, Stands t spot v → Used spot v u →
        (∃ q, Stands t q u ∧ q.scene = true) ∧ u.kind = .thisExpression from hbelow .here
    intro spot v hv hu
    induction hu with
    | here hscene hthis => exact ⟨⟨_, hv, hscene⟩, hthis⟩
    | child _ hc _ ih => exact ih (hv.child hc)
  · rintro ⟨⟨q, hq, hscene⟩, hthis⟩
    suffices hbelow : ∀ {spot v}, Stands t spot v → Used spot v u → Used .inside t u from
      hbelow hq (.here hscene hthis)
    intro spot v hv hu
    induction hv with
    | here => exact hu
    | @child p q v c hv hc ih =>
      refine ih (.child (fun _ hthis => ?_) hc hu)
      -- A `this` has no children.
      have hleaf := (hs.tokens v (mem_preorder.mpr (ht.trans hv.sound.1)) hthis).1
      simpa [hleaf] using (of_mem_spots hc).1

theorem not_used_outside (p : Spot) (hp : p = .outside) : ¬ Used p t u := by
  intro h
  induction h with
  | here hscene =>
    subst hp
    cases hscene
  | @child p q t c u _ hc _ ih =>
    subst hp
    have hspots : (Spot.outside.ahead t.kind).spots t.children =
        t.children.map fun c => (.outside, c) := spots_still _ t.children
    rw [hspots] at hc
    obtain ⟨c', -, heq⟩ := List.mem_map.mp hc
    exact ih (Prod.ext_iff.mp heq).1.symm

theorem not_useEdit_outside (e : Edit) : ¬ UseEdit context .outside t e := by
  rintro ⟨u, hu, -⟩
  exact not_used_outside _ rfl hu

/-- Below a node that says nothing of its children the uses are those below the children. -/
theorem useEdit_children (hahead : Spot.inside.ahead t.kind = ⟨false, false, false, false⟩)
    (e : Edit) : UseEdit context .inside t e ↔ ∃ c ∈ t.children, UseEdit context .inside c e := by
  have hspots : (Spot.inside.ahead t.kind).spots t.children =
      t.children.map fun c => (.inside, c) := by
    rw [hahead]
    exact spots_still _ t.children
  constructor
  · rintro ⟨u, hu, rfl⟩
    cases hu with
    | here hscene => cases hscene
    | child _ hc hu =>
      rw [hspots] at hc
      obtain ⟨v, hv, heq⟩ := List.mem_map.mp hc
      obtain ⟨rfl, rfl⟩ := Prod.ext_iff.mp heq
      exact ⟨v, hv, u, hu, rfl⟩
  · rintro ⟨c, hc, u, hu, rfl⟩
    refine ⟨u, .child (fun hscene => by cases hscene) ?_ hu, rfl⟩
    rw [hspots]
    exact List.mem_map_of_mem hc

/-! ## Trees in turn -/

/-- What a phrase makes of the range of its tree, wherever the gap before it begins. -/
def PhraseMakes (s : Script) (phrase : Nat → Tree → Phrase) (t : Tree) (P : Edit → Prop) : Prop :=
  ∀ pos, pos ≤ t.start → Text.Boundary s.source pos →
    Makes s pos t.stop ((phrase pos t).gap ++ (phrase pos t).text) P

variable {phrase first : Nat → Tree → Phrase} {F R : Tree → Edit → Prop} {r : Role}

theorem makes_inTurn (hs : s.Regular) (hts : ∀ t ∈ ts, Contains s.tree t)
    (hordered : Ordered a b ts) (ha : Text.Boundary s.source a) (hb : Text.Boundary s.source b)
    (hphrase : ∀ t ∈ ts, PhraseMakes s phrase t (R t)) :
    Makes s a b (Phrase.textAll (inTurn phrase a ts) ++ s.between (lastStop a ts) b)
      fun e => ∃ t ∈ ts, R t e := by
  induction ts generalizing a with
  | nil => exact (makes_kept hordered ha hb).congr fun e => by simp
  | cons t ts ih =>
    have hfirst := hphrase t (by simp) a hordered.1 ha
    have hrest := ih (fun c hc => hts c (by simp [hc])) hordered.2.2
      (hs.boundary (hts t (by simp))).2 fun c hc => hphrase c (by simp [hc])
    rw [inTurn, Phrase.textAll, lastStop_cons, List.append_assoc]
    exact (hfirst.append hrest).congr fun e => by simp

/-- The first tree in a role makes something of its own besides what it would make. -/
theorem makes_inTurnBut (hs : s.Regular) (hts : ∀ t ∈ ts, Contains s.tree t)
    (hordered : Ordered a b ts) (ha : Text.Boundary s.source a) (hb : Text.Boundary s.source b)
    (hphrase : ∀ t ∈ ts, PhraseMakes s phrase t (R t))
    (hfirst : ∀ t, ts.find? (fun c => c.role == r) = some t →
      PhraseMakes s first t fun e => F t e ∨ R t e) :
    Makes s a b (Phrase.textAll (inTurnBut r first phrase a ts) ++ s.between (lastStop a ts) b)
      fun e => (∃ t, ts.find? (fun c => c.role == r) = some t ∧ F t e) ∨ ∃ t ∈ ts, R t e := by
  induction ts generalizing a with
  | nil => exact (makes_kept hordered ha hb).congr fun e => by simp
  | cons t ts ih =>
    have hstop := (hs.boundary (hts t (by simp))).2
    rw [inTurnBut, lastStop_cons]
    cases hr : t.role == r with
    | true =>
      have hfind : (t :: ts).find? (fun c => c.role == r) = some t := by simp [hr]
      have hrest := makes_inTurn hs (fun c hc => hts c (by simp [hc])) hordered.2.2 hstop hb
        fun c hc => hphrase c (by simp [hc])
      rw [if_pos rfl, Phrase.textAll, List.append_assoc]
      refine ((hfirst t hfind a hordered.1 ha).append hrest).congr fun e => ?_
      simp only [hfind, Option.some.injEq, exists_eq_left', List.mem_cons, exists_eq_or_imp,
        or_assoc]
    | false =>
      have hfind : (t :: ts).find? (fun c => c.role == r) = ts.find? (fun c => c.role == r) := by
        simp [hr]
      have hrest := ih (fun c hc => hts c (by simp [hc])) hordered.2.2 hstop
        (fun c hc => hphrase c (by simp [hc])) fun c hc => hfirst c (hfind.trans hc)
      rw [if_neg Bool.false_ne_true, Phrase.textAll, List.append_assoc, hfind]
      refine ((hphrase t (by simp) a hordered.1 ha).append hrest).congr fun e => ?_
      simp only [List.mem_cons, exists_eq_or_imp]
      exact or_left_comm

theorem makes_around (hs : s.Regular) (ht : Contains s.tree t) {ps : List Phrase}
    (h : Makes s t.start t.stop (Phrase.textAll ps ++ s.between (lastStop t.start t.children) t.stop)
      P) {pos : Nat} (hpos : pos ≤ t.start) (hb : Text.Boundary s.source pos) :
    Makes s pos t.stop ((s.around pos t ps).gap ++ (s.around pos t ps).text) P :=
  h.keep_before hpos hb (hs.boundary ht).1

theorem boundary_lastStop (hs : s.Regular) (ha : Text.Boundary s.source a)
    (hts : ∀ t ∈ ts, Contains s.tree t) : Text.Boundary s.source (lastStop a ts) := by
  induction ts generalizing a with
  | nil => exact ha
  | cons t ts ih =>
    rw [lastStop_cons]
    exact ih (hs.boundary (hts t (by simp))).2 fun c hc => hts c (by simp [hc])

theorem between_self (s : Script) (a : Nat) : s.between a a = [] := by
  rw [between, Nat.sub_self, Text.takeBytes]

/-! ## The scene among the parameters -/

/-- The type of the scene, as it is written in a conversion of the typed dialect. -/
def SpellsType (s : Script) (o : ConversionOptions) (type : Phrase) : Prop :=
  s.dialect.isTyped = true → type.gap ++ type.text = (": " ++ o.sceneType ++ " | any").toList

instance (s : Script) (o : ConversionOptions) (type : Phrase) : Decidable (s.SpellsType o type) :=
  inferInstanceAs (Decidable (_ → _))

theorem scene_text (htype : s.SpellsType o type) (gap : List Char) :
    (Phrase.scene s.dialect o.context type gap).gap = gap ∧
      (Phrase.scene s.dialect o.context type gap).text = (s.sceneParameter o).toList := by
  rw [Phrase.scene, sceneParameter]
  cases hd : s.dialect.isTyped with
  | true =>
    refine ⟨rfl, ?_⟩
    change ([] ++ ([] ++ o.context.toList) ++ (type.gap ++ type.text ++ [])) ++ [] = _
    simp only [htype hd, ↓reduceIte, List.nil_append, List.append_nil, String.toList_append,
      List.append_assoc]
  | false => exact ⟨rfl, rfl⟩

theorem between_token (ha : Text.Boundary s.source a)
    (h : (Text.encode s.source)[a]? = some 40) : s.between a (a + 1) = ['('] := by
  refine Text.encode_injective ?_
  rw [encode_between (Nat.le_succ a) ha (ha.succ h (by decide))]
  have hlt := (List.getElem?_eq_some_iff.mp h).1
  rw [List.drop_take, Nat.succ_sub (Nat.le_refl a), Nat.sub_self, List.drop_eq_getElem_cons hlt, List.take_succ_cons,
    List.take_zero, (List.getElem?_eq_some_iff.mp h).2]
  rfl

theorem rebound_gap (pos : Nat) (t : Tree) :
    (s.rebound context spot pos t).gap = s.between pos t.start := by
  obtain ⟨r, k, a, b, cs⟩ := t
  rw [Script.rebound]
  split <;> rfl

theorem rebound_text (pos pos' : Nat) (t : Tree) :
    (s.rebound context spot pos t).text = (s.rebound context spot pos' t).text := by
  obtain ⟨r, k, a, b, cs⟩ := t
  rw [Script.rebound, Script.rebound]
  split <;> rfl

theorem UseEdit.bounds (hs : s.Regular) (ht : Contains s.tree t) {e : Edit}
    (h : UseEdit context .inside t e) : (t.start : Int) ≤ e.start ∧ e.start < e.stop := by
  obtain ⟨u, hu, rfl⟩ := h
  have huse := (used_iff hs ht).mp hu
  have hin := ht.trans huse.contains
  have htoken := (hs.tokens u (mem_preorder.mpr hin) (sceneUse_iff.mp huse).2).2
  have hnested := ((hs.nested.contains ht).2.1.contains huse.contains).1
  simp only
  omega

/-- What the scene is put into, once it is behind the token of the list. -/
theorem between_opened (hs : s.Regular) {list : Tree} (hin : Contains s.tree list)
    (hlist : s.RegularList list) {stop : Nat} (hlt : list.start < stop)
    (hstop : Text.Boundary s.source stop) :
    s.between list.start stop = '(' :: s.between (list.start + 1) stop := by
  have hstart := (hs.boundary hin).1
  have hopened := hstart.succ hlist.opened (by decide)
  rw [← between_append (Nat.le_succ _) hlt hstart hopened hstop,
    between_token hstart hlist.opened]
  rfl

theorem putScene_gap (scene : List Char → Phrase) (receiver : Bool) (p : Phrase) :
    (p.putScene scene receiver).gap = p.gap := by
  obtain ⟨r, k, g, cs, w⟩ := p
  cases cs with
  | nil => rfl
  | cons q qs =>
    rw [Phrase.putScene]
    split <;> rfl

/-- What is written where the scene is put between some parameters and others. -/
def declarationText (s : Script) (o : ConversionOptions) (before after : List Tree) : String :=
  (if before = [] then "" else ", ") ++ s.sceneParameter o ++
    (if before = [] ∧ after ≠ [] then ", " else "")

/-- The text of a list with the scene in it: the declaration stands behind what comes
before it and ahead of what comes after it. -/
theorem putScene_text (hs : s.Regular) (htype : s.SpellsType o type) {list : Tree}
    (hin : Contains s.tree list) (hlist : s.RegularList list) {before after : List Tree}
    (hsplit : list.children = before ++ after)
    (hbefore : before = list.children.take (if list.children.head?.any isReceiver then 1 else 0)) :
    ((s.around a list (inTurn (s.rebound o.context .inside) list.start list.children)).putScene
      (.scene s.dialect o.context type) (list.children.head?.any isReceiver)).text =
    ['('] ++ (Phrase.textAll (inTurn (s.rebound o.context .inside) (list.start + 1) before) ++
      ((s.declarationText o before after).toList ++
        (Phrase.textAll
            (inTurn (s.rebound o.context .inside) (lastStop (list.start + 1) before) after) ++
          s.between (lastStop (lastStop (list.start + 1) before) after) list.stop))) := by
  have hclosed := hlist.closed
  cases hcs : list.children with
  | nil =>
    obtain ⟨rfl, rfl⟩ := List.append_eq_nil_iff.mp (hsplit.symm.trans hcs)
    have hgap : s.between list.start list.stop = '(' :: s.between (list.start + 1) list.stop :=
      between_opened hs hin hlist (by omega) (hs.boundary hin).2
    simp [around, hcs, inTurn, Phrase.putScene, Phrase.text, Phrase.textAll, hgap,
      scene_text htype, declarationText]
  | cons p ps =>
    have hbetween := hlist.between
    rw [hcs] at hbetween
    have hpstart := hbetween.1
    have hgap : s.between list.start p.start = '(' :: s.between (list.start + 1) p.start :=
      between_opened hs hin hlist (by omega)
        (hs.boundary (hin.trans (contains_child (by simp [hcs])))).1
    rw [hcs, List.head?_cons, Option.any_some] at hbefore
    rw [List.head?_cons, Option.any_some, around, hcs, lastStop_cons, inTurn]
    cases hreceiver : isReceiver p with
    | true =>
      rw [hreceiver, if_pos rfl, List.take_succ_cons, List.take_zero] at hbefore
      subst hbefore
      obtain rfl : ps = after := by simpa [hcs] using hsplit
      simp [Phrase.putScene, Phrase.text, Phrase.textAll, inTurn, scene_text htype,
        declarationText, rebound_gap, rebound_text (list.start + 1) list.start, hgap]
    | false =>
      rw [hreceiver, if_neg Bool.false_ne_true, List.take_zero] at hbefore
      subst hbefore
      obtain rfl : p :: ps = after := by simpa [hcs] using hsplit
      simp [Phrase.putScene, Phrase.text, Phrase.textAll, inTurn, scene_text htype,
        declarationText, rebound_gap, rebound_text list.start (list.start + 1), hgap]

/-- A parameter list takes the scene where its edit says. -/
theorem makes_list (hs : s.Regular) (htype : s.SpellsType o type) {site : Site}
    (hsite : site ∈ s.sites) {list : Tree} (hl : site.parameters? = some list)
    {parameters : List Edit} (hedits : s.sceneParameterEdits o site = .ok parameters) :
    PhraseMakes s (s.listPhrase o type) list fun e =>
      e ∈ parameters ∨ UseEdit o.context .inside list e := by
  intro pos hpos hb
  have hin : Contains s.tree list := (site_contains hsite).trans (contains_child (child?_mem hl))
  have hlist := hs.lists site hsite list hl
  obtain ⟨hstart, hstop⟩ := hs.boundary hin
  have hchildren : ∀ c ∈ list.children, Contains s.tree c :=
    fun c hc => hin.trans (contains_child hc)
  have hrebound : ∀ c ∈ list.children, PhraseMakes s (s.rebound o.context .inside) c
      (UseEdit o.context .inside c) :=
    fun c hc pos hpos hb => makes_rebound hs (hchildren c hc) hpos hb
  have huses : ∀ e, UseEdit o.context .inside list e ↔
      ∃ c ∈ list.children, UseEdit o.context .inside c e :=
    useEdit_children (by rw [hlist.kind]; rfl)
  have htakes : TakesSceneOnce s o site parameters := by
    obtain ⟨-, p, -, herror⟩ | ⟨-, edits, hok, htakes⟩ := sceneParameterEdits_cases s o site
    · simp [hedits] at herror
    · obtain rfl := Except.ok.inj (hedits.symm.trans hok)
      exact htakes hsite
  rw [listPhrase]
  by_cases hany : list.children.any (s.isSceneParameter o.context) = true
  · obtain ⟨p, hp, hscene⟩ := List.any_eq_true.mp hany
    have hnone := htakes.bare list hl ⟨p, hp, isSceneParameter_iff_bare.mp hscene⟩
    rw [if_pos hany]
    refine (makes_around hs hin (makes_inTurn hs hchildren
      (hs.nested.contains hin).2.1.children hstart hstop hrebound) hpos hb).congr fun e => ?_
    simp [huses, hnone]
  · have hbare : ∀ p ∈ list.children, ¬ Bare s o.context p := fun p hp hb =>
      hany (List.any_eq_true.mpr ⟨p, hp, isSceneParameter_iff_bare.mpr hb⟩)
    obtain ⟨before, after, e, rfl, hdeclares, hbefore⟩ := htakes.free list hl hbare
    have hopened := hstart.succ hlist.opened (by decide)
    have hbeforeIn : ∀ c ∈ before, c ∈ list.children := fun c hc => by simp [hdeclares.split, hc]
    have hafterIn : ∀ c ∈ after, c ∈ list.children := fun c hc => by simp [hdeclares.split, hc]
    obtain ⟨hfirst, hrest⟩ := Ordered.append (hdeclares.split ▸ hlist.between)
    have hplace : Text.Boundary s.source (lastStop (list.start + 1) before) :=
      boundary_lastStop hs hopened fun c hc => hchildren c (hbeforeIn c hc)
    obtain ⟨-, hlt, -, hafter⟩ := hdeclares.apart hs
    have hstart' : e.start = (lastStop (list.start + 1) before : Nat) := hdeclares.place
    have heq : e = ⟨lastStop (list.start + 1) before, lastStop (list.start + 1) before,
        Text.encode (s.declarationText o before after).toList⟩ := by
      rw [← hstart']
      cases e
      exact congrArg₂ (Edit.mk _) hdeclares.inserts hdeclares.text
    have hahead := makes_inTurn hs (fun c hc => hchildren c (hbeforeIn c hc)) hfirst hopened hplace
      fun c hc => hrebound c (hbeforeIn c hc)
    have hbehind := (makes_inTurn hs (fun c hc => hchildren c (hafterIn c hc))
      (hrest.mono (Nat.sub_le _ _)) hplace hstop fun c hc => hrebound c (hafterIn c hc)).insert
        (s.declarationText o before after).toList (by omega) fun f hf => by
          obtain ⟨c, hc, hf⟩ := hf
          have := hf.bounds hs (hchildren c (hafterIn c hc))
          have := hafter c hc
          omega
    have hput := (hahead.append hbehind).keep_before (Nat.le_succ _) hstart hopened
    rw [between_self, List.append_nil, between_token hstart hlist.opened] at hput
    rw [if_neg hany, putScene_gap, putScene_text hs htype hin hlist hdeclares.split hbefore]
    refine (hput.keep_before hpos hb hstart).congr fun f => ?_
    rw [huses, hdeclares.split, heq]
    simp only [List.mem_append, List.mem_singleton, or_and_right, exists_or]
    exact or_left_comm

/-! ## Functions and statements -/

theorem useEdit_iff (hs : s.Regular) {site : Site} (hsite : site ∈ s.sites) (e : Edit) :
    UseEdit o.context .inside site.tree e ↔ e ∈ sceneUseEdits o site := by
  simp only [UseEdit, used_iff hs (site_contains hsite), sceneUseEdits, List.mem_map,
    mem_sceneUses, eq_comm]

theorem makes_function (hs : s.Regular) (htype : s.SpellsType o type) {site : Site}
    (hsite : site ∈ s.sites) {parameters : List Edit}
    (hedits : s.sceneParameterEdits o site = .ok parameters) :
    PhraseMakes s (s.functionPhrase o type) site.tree fun e =>
      e ∈ parameters ∨ e ∈ sceneUseEdits o site := by
  intro pos hpos hb
  have hin := site_contains hsite
  obtain ⟨hstart, hstop⟩ := hs.boundary hin
  have hchildren : ∀ c ∈ site.tree.children, Contains s.tree c :=
    fun c hc => hin.trans (contains_child hc)
  have hahead : Spot.inside.ahead site.tree.kind = ⟨false, false, false, false⟩ := by
    obtain ⟨t, -, ht⟩ := mem_sites hsite
    have hkind := siteOf?_kind ht
    revert hkind
    cases site.tree.kind <;> simp [isFunctionKind, Spot.ahead, Spot.inside]
  refine (makes_around hs hin (makes_inTurnBut hs hchildren
    (hs.nested.contains hin).2.1.children hstart hstop
    (fun c hc pos hpos hb => makes_rebound hs (hchildren c hc) hpos hb)
    (fun list hlist => makes_list hs htype hsite hlist hedits)) hpos hb).congr fun e => ?_
  rw [← useEdit_children hahead, useEdit_iff hs hsite]
  apply or_congr_left
  constructor
  · rintro ⟨list, hlist, he⟩
    exact he
  · intro he
    cases hl : site.parameters? with
    | some list => exact ⟨list, hl, he⟩
    | none =>
      obtain rfl : [] = parameters := by simpa [sceneParameterEdits, hl] using hedits
      cases he

/-- The scene is put behind the beginning of a function. -/
theorem lt_stop_of_parameters (hs : s.Regular) {site : Site} (hsite : site ∈ s.sites)
    {parameters : List Edit} (hedits : s.sceneParameterEdits o site = .ok parameters) {e : Edit}
    (he : e ∈ parameters) : (site.tree.start : Int) < e.stop := by
  cases takesScene hedits with
  | noList => cases he
  | there => cases he
  | put _ _ hplace =>
    have := (hplace.within hs hsite).1
    rw [List.mem_singleton.mp he]
    simp only [insertion]
    omega

/-- A statement makes the edits of its function, and nothing when it has none. -/
theorem makes_statement (hs : s.Regular) (htype : s.SpellsType o type)
    (hedits : s.allSiteEdits o = .ok edits) (ht : t ∈ s.statements) :
    PhraseMakes s (s.statementPhrase o type) t fun e =>
      ∃ site, s.siteOf? t = some site ∧ ∃ l, s.siteEdits o site = .ok l ∧ e ∈ l := by
  intro pos hpos hb
  have hin : Contains s.tree t := contains_child ht
  obtain ⟨hstart, hstop⟩ := hs.boundary hin
  cases hsite : s.siteOf? t with
  | none =>
    rw [statementPhrase, hsite]
    exact (makes_rebound hs hin hpos hb).congr fun e => by simp [not_useEdit_outside]
  | some site =>
    have hmem : site ∈ s.sites := List.mem_filterMap.mpr ⟨t, ht, hsite⟩
    obtain ⟨l, hl⟩ := siteEdits_ok hedits hmem
    obtain ⟨parameters, hparameters, rfl⟩ := siteEdits_eq_ok.mp hl
    have hfunction := makes_function hs htype hmem hparameters
    simp only [Option.some.injEq, exists_eq_left', hl, Except.ok.injEq, statementPhrase, hsite]
    cases siteOf?_cases hsite with
    | inr hexport =>
      obtain ⟨hexport, hd, -, hexported⟩ := hexport
      have hchildren : ∀ c ∈ t.children, Contains s.tree c :=
        fun c hc => hin.trans (contains_child hc)
      rw [if_pos (by simp [hexport])]
      have hcopies : ∀ c ∈ t.children,
          PhraseMakes s (s.rebound o.context .outside) c fun _ => False :=
        fun c hc pos hpos hb => (makes_rebound hs (hchildren c hc) hpos hb).congr fun e => by
          simp [not_useEdit_outside]
      have hfirst : ∀ d, t.children.find? (fun c => c.role == exportedRole t) = some d →
          PhraseMakes s (s.functionPhrase o type) d fun e =>
            (e ∈ parameters ∨ e ∈ sceneUseEdits o site) ∨ False := by
        intro d hfind
        obtain rfl : site.tree = d :=
          Option.some.inj (hd.symm.trans ((exported?_eq t).trans hfind))
        simpa only [or_false] using hfunction
      have hfind : t.children.find? (fun c => c.role == exportedRole t) = some site.tree :=
        (exported?_eq t).symm.trans hd
      refine (makes_around hs hin (makes_inTurnBut hs hchildren
        (hs.nested.contains hin).2.1.children hstart hstop hcopies hfirst) hpos hb).congr fun e => ?_
      simp [hfind, exportEdits, hexported]
    | inl hdeclared =>
      obtain ⟨hdeclared, hstatement, rfl⟩ := hdeclared
      rw [if_neg (by simp [hstatement])]
      split
      · rename_i hlisted
        refine (hfunction pos hpos hb).congr fun e => ?_
        rw [exportEdits, if_pos hlisted, List.nil_append, List.mem_append]
      · rename_i hunlisted
        have hput := (hfunction t.start (Nat.le_refl _) hstart).insert "export ".toList
          (hs.functions _ hmem) fun e he => ?_
        · have hgap : (s.functionPhrase o type t.start t).gap = [] := between_self s t.start
          have htext : (Phrase.node t.role .exportStatement (s.between pos t.start)
              [((s.functionPhrase o type t.start t).withRole .declaration).withGap
                "export ".toList] []).text =
                "export ".toList ++ (s.functionPhrase o type t.start t).text := by
            simp [Phrase.text, Phrase.textAll]
          rw [hgap, List.nil_append] at hput
          rw [htext]
          refine (hput.keep_before hpos hb hstart).congr fun e => ?_
          rw [exportEdits, if_neg hunlisted, List.append_assoc, List.mem_append, List.mem_append,
            List.mem_singleton]
          rfl
        · cases he with
          | inl he => exact lt_stop_of_parameters hs hmem hparameters he
          | inr he =>
            have := ((useEdit_iff hs hmem e).mpr he).bounds hs hin
            omega

/-! ## The script -/

theorem between_end (ha : Text.Boundary s.source a) :
    s.between a (Text.encode s.source).length = Text.dropBytes a s.source := by
  obtain ⟨front, back, hsource, rfl⟩ := ha
  have hsplit : s.source = front ++ back ++ [] := by rw [hsource, List.append_nil]
  have hlength : (Text.encode s.source).length = width front + width back := by
    rw [length_encode, hsource, width_append]
  rw [hlength, length_encode, between_of_split hsplit, hsource, dropBytes_width]

/-- The tree that comes of carrying out the edits of the functions spells the text that
comes of applying them. -/
theorem carriedOut_source (hs : s.Regular) (htype : s.SpellsType o type)
    (hedits : s.allSiteEdits o = .ok edits) :
    Text.encode (s.carriedOut o type).source = s.edited edits := by
  have hin : Contains s.tree s.tree := .here s.tree
  obtain ⟨hstart, hstop⟩ := hs.boundary hin
  have hend : Text.Boundary s.source (Text.encode s.source).length :=
    ⟨s.source, [], (List.append_nil _).symm, rfl⟩
  have htree := makes_around hs hin (makes_inTurn hs (fun c hc => contains_child hc)
    hs.nested.children hstart hstop fun t ht => makes_statement hs htype hedits ht)
    (Nat.zero_le _) (Text.boundary_zero s.source)
  obtain ⟨changes, hwrites, hmem⟩ :=
    htree.append (makes_kept (Text.boundary_le hstop) hstop hend)
  have hchanges : ∀ e, e ∈ changes ↔ e ∈ edits.eraseDups := by
    intro e
    rw [hmem, List.mem_eraseDups, mem_allSiteEdits_iff hedits]
    simp only [or_false]
    constructor
    · rintro ⟨t, ht, site, hsite, hl⟩
      exact ⟨site, List.mem_filterMap.mpr ⟨t, ht, hsite⟩, hl⟩
    · rintro ⟨site, hsite, hl⟩
      obtain ⟨t, ht, hsite⟩ := mem_sites hsite
      exact ⟨t, ht, site, hsite, hl⟩
  have hnodup : changes.Nodup := hwrites.sorted.imp fun hef heq =>
    hef.2 ⟨congrArg Edit.start heq, congrArg Edit.stop heq⟩
  have hperm := (List.perm_ext_iff_of_nodup hnodup (eraseDups_nodup edits)).mpr hchanges
  have hrange : ∀ e ∈ changes, e.InRange (Text.encode s.source).length := fun e he => by
    have := hwrites.bounds.2 e he
    exact ⟨by omega, by omega, by omega⟩
  have hsplice := hwrites.splice_eq
  rw [List.take_length, between_end hstop] at hsplice
  rw [edited, Edit.applyAll_eq_splice hperm hwrites.sorted hrange]
  exact hsplice.symm

end SceneSync.Script
