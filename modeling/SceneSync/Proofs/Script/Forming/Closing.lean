import Mathlib
import SceneSync.Proofs.Script.Forming.Laying

/-!
# Closing nodes

A layout becomes a node when its rule closes it, a token is a node of its own, and the
repetitions of the grammar lay out one part after the other.
-/

namespace SceneSync.Script

open Script.Parser Script.Tree

variable {src : List Char} {dialect : Dialect} {c d : Cursor} {t u : Tree} {ts us : List Tree}
  {a n : Nat} {k : Kind} {ρ : Role} {α β : Type} {r r' : Reach} {P Q : Tree → Prop}

/-- A node without a role of its own that is no list of exported names. -/
structure Usual (t : Tree) : Prop where
  role : t.role = .plain
  kind : t.kind ≠ .exportClause

/-- A token of a kind. -/
structure IsToken (k : Kind) (t : Tree) : Prop extends Usual t where
  kind_eq : t.kind = k
  leaf : t.children = []

theorem Usual.of_isFree (h : isFree k = true) : Usual (.node .plain k a n ts) :=
  ⟨rfl, ne_exportClause_of_isTokenKind (isTokenKind_of_isFree h)⟩

@[simp] theorem role_withRole : (t.withRole ρ).role = ρ := by
  cases t
  rfl

@[simp] theorem kind_withRole : (t.withRole ρ).kind = t.kind := by
  cases t
  rfl

@[simp] theorem children_withRole : (t.withRole ρ).children = t.children := by
  cases t
  rfl

/-! ## Nodes from their parts -/

/-- A statement may end behind the token before the cursor. -/
theorem Laid.whole_behind (h : Laid src dialect a .firm ts c) (hn : Text.Boundary src n)
    (hprevious : c.previous ≤ n) (hstart : n ≤ c.start)
    (hparts : ∀ b, Begun src a b → Parts src dialect k a b ts) (hP : ∀ b, P (.node .plain k a b ts)) :
    Whole src dialect a .loose P (.node .plain k a n ts) c := by
  have hlast : lastStop 0 ts ≤ c.previous := h.last_le
  have hbegun := h.begun_previous.mono hprevious
  exact h.whole (hlast.trans hprevious) hbegun hstart ⟨h.first, hn, hparts n hbegun⟩ (hP n)

/-- A node is put around what was read, up to the token before the cursor. -/
theorem Laid.whole_around (h : Laid src dialect a .firm ts c)
    (hk : isFree k = true) (hsame : us.map Tree.bare = ts.map Tree.bare) :
    Whole src dialect a .firm Usual (.node .plain k a c.previous us) c := by
  have hlaid := h.congr hsame
  exact hlaid.whole hlaid.last_le hlaid.begun_previous (Nat.le_refl _)
    ⟨h.first, h.placed.previous, parts_of_isFree hk⟩ (Usual.of_isFree hk)

theorem Laid.closes (h : Laid src dialect a r ts c) (hr : r ≠ .fresh)
    (hsame : us.map Tree.bare = ts.map Tree.bare)
    (hparts : Parts src dialect k a (max c.previous (lastStop 0 us)) us)
    (hP : ∀ b, P (.node .plain k a b us)) :
    ReadsAt src c (Whole src dialect a r P) (close k a us) := by
  rintro _ _ ⟨⟩
  have hlaid := h.congr hsame
  have hedge := max_le (h.placed.previous_le_edge r) hlaid.last_le
  exact ⟨h.placed.within, hlaid.whole (le_max_right _ _) (hlaid.begun_of_ne hr) hedge
    ⟨h.first, hlaid.last_boundary, hparts⟩ (hP _)⟩

namespace Leads

variable {I : Cursor → Prop} {R : α → Cursor → Prop} {S : β → Cursor → Prop}

theorem mono {R' : α → Cursor → Prop} {p : Parser α} (hp : Leads src I R p)
    (h : ∀ x d, R x d → R' x d) : Leads src I R' p :=
  fun c hc => (hp c hc).mono h

/-- A node in which something is asked of the parts. -/
theorem closeShaped (hr : r ≠ .fresh) (hsame : us.map Tree.bare = ts.map Tree.bare)
    (hparts : ∀ b, Begun src a b → Parts src dialect k a b us) (hP : ∀ b, P (.node .plain k a b us)) :
    Leads src (Laid src dialect a r ts) (Whole src dialect a r P) (close k a us) :=
  fun _ hc => hc.closes hr hsame (hparts _ ((hc.congr hsame).begun_of_ne hr)) hP

/-- A node of a kind of which nothing is asked. -/
theorem close (hk : isFree k = true) (hsame : us.map Tree.bare = ts.map Tree.bare) :
    Leads src (Laid src dialect a .firm ts) (Whole src dialect a .firm Usual)
      (Parser.close k a us) :=
  .closeShaped nofun hsame (fun _ _ => parts_of_isFree hk) fun _ => .of_isFree hk

/-- As `close`, where the last part may be a statement. -/
theorem closeLoose (hk : isFree k = true) (hsame : us.map Tree.bare = ts.map Tree.bare) :
    Leads src (Laid src dialect a .loose ts) (Whole src dialect a .loose Usual)
      (Parser.close k a us) :=
  .closeShaped nofun hsame (fun _ _ => parts_of_isFree hk) fun _ => .of_isFree hk

/-- The node that was read is the result. -/
theorem result (hPQ : P t → Q t) :
    Leads src (Whole src dialect a r P t) (Whole src dialect a r Q) (pure t) :=
  fun _ hc => .pure hc.placed.within (hc.mono hPQ)

theorem resultAs (hPQ : P t → Q (t.withRole ρ)) :
    Leads src (Whole src dialect a r P t) (Whole src dialect a r Q) (pure (t.withRole ρ)) :=
  fun _ hc => .pure hc.placed.within (hc.withRole hPQ)

/-- The nodes that were read are the result. -/
theorem results {ws : List Tree} (hsame : (ts ++ us).map Tree.bare = ws.map Tree.bare)
    (hP : ∀ u ∈ us, P u) :
    Leads src (Laid src dialect a r ws)
      (fun us d => Laid src dialect a r (ts ++ us) d ∧ ∀ u ∈ us, P u) (pure us) :=
  fun _ hc => .pure hc.placed.within ⟨hc.congr hsame, hP⟩

theorem accept {p : String} {f : Bool → Parser β}
    (hthere : Leads src (Laid src dialect a .firm ts) S (f true))
    (hmissing : Leads src (Laid src dialect a r ts) S (f false)) :
    Leads src (Laid src dialect a r ts) S (accept p >>= f) := by
  intro c hc
  refine .accept (fun htoken => hthere _ ?_) fun _ => hmissing c hc
  exact hc.take hc.placed.advance (hc.placed.past (by rw [htoken]; rfl))

theorem acceptWord {w : String} {f : Bool → Parser β}
    (hthere : Leads src (Laid src dialect a .firm ts) S (f true))
    (hmissing : Leads src (Laid src dialect a r ts) S (f false)) :
    Leads src (Laid src dialect a r ts) S (acceptWord w >>= f) := by
  intro c hc
  refine .acceptWord (fun htoken => hthere _ ?_) fun _ => hmissing c hc
  exact hc.take hc.placed.advance (hc.placed.past (by rw [htoken]; rfl))

theorem startsAccept {p : String} {f : Bool → Parser β}
    (hthere : Leads src (Laid src dialect a .firm []) S (f true))
    (hmissing : Leads src (Starts src dialect a) S (f false)) :
    Leads src (Starts src dialect a) S (Parser.accept p >>= f) := by
  intro c hc
  refine .accept (fun htoken => hthere _ ?_) fun _ => hmissing c hc
  exact hc.laid.take hc.placed.advance (hc.placed.past (by rw [htoken]; rfl))

theorem startsAcceptWord {w : String} {f : Bool → Parser β}
    (hthere : Leads src (Laid src dialect a .firm []) S (f true))
    (hmissing : Leads src (Starts src dialect a) S (f false)) :
    Leads src (Starts src dialect a) S (Parser.acceptWord w >>= f) := by
  intro c hc
  refine .acceptWord (fun htoken => hthere _ ?_) fun _ => hmissing c hc
  exact hc.laid.take hc.placed.advance (hc.placed.past (by rw [htoken]; rfl))

/-- A node goes on behind a punctuator, or is the whole of it. -/
theorem goesOn {p : String} {f : Bool → Parser β}
    (hthere : Leads src (Laid src dialect a .firm [t]) S (f true))
    (hmissing : Leads src (Whole src dialect a r P t) S (f false)) :
    Leads src (Whole src dialect a r P t) S (Parser.accept p >>= f) := by
  intro c hc
  refine .accept (fun htoken => hthere _ ?_) fun _ => hmissing c hc
  exact hc.laid.take hc.placed.advance (hc.placed.past (by rw [htoken]; rfl))

/-- A part that may be missing, and what comes behind it. -/
theorem maybe {p : Parser Tree} {f : List Tree → Parser β} {b : Bool}
    (hp : Yields src dialect r P p)
    (hf : ∀ us, (∀ u ∈ us, P u) → Leads src (Laid src dialect a r (ts ++ us)) S (f us)) :
    Leads src (Laid src dialect a r ts) S
      (if b = true then (do let t ← p; let us ← Pure.pure [t]; f us)
        else do let us ← Pure.pure []; f us) := by
  refine .ite (.child hp fun t ht => hf [t] (by simpa using ht)) ?_
  simpa using hf [] (by simp)

/-- As `maybe`, for a part in a role of its own. -/
theorem maybeAs {p : Parser Tree} {f : List Tree → Parser β} {b : Bool}
    (hp : Yields src dialect r P p)
    (hf : ∀ us, (∀ u ∈ us, ∃ t, P t ∧ u = t.withRole ρ) →
      Leads src (Laid src dialect a r (ts ++ us)) S (f us)) :
    Leads src (Laid src dialect a r ts) S
      (if b = true then (do let t ← p; let us ← Pure.pure [t.withRole ρ]; f us)
        else do let us ← Pure.pure []; f us) := by
  refine .ite (.child hp fun t ht c hc => ?_) ?_
  · exact hf [t.withRole ρ] (by simpa using ⟨t, ht, rfl⟩) c (hc.congr (by simp))
  · simpa using hf [] (by simp)

/-- A semicolon or, where none is needed, the comments of the line end a statement. -/
theorem closeStatement (hsame : us.map Tree.bare = ts.map Tree.bare)
    (hparts : ∀ b, Begun src a b → Parts src dialect k a b us) (hP : ∀ b, P (.node .plain k a b us)) :
    Leads src (Laid src dialect a .firm ts) (Whole src dialect a .loose P)
      (closeStatement k a us) := by
  refine .accept ?_ (.look .mayEnd fun _ => .look (.guardThat _) fun _ c hc => ?_)
  · exact (Leads.closeShaped (r := .firm) nofun hsame hparts hP).mono fun _ _ h => h.loosen
  · rintro _ _ ⟨⟩
    have hplaced := hc.placed
    refine ⟨hplaced.within, ?_⟩
    split
    · exact (hc.congr hsame).whole_behind hplaced.remark hplaced.previous_le hplaced.remark_le
        hparts hP
    · exact (hc.congr hsame).whole_behind hplaced.previous (Nat.le_refl _)
        hplaced.previous_le_start hparts hP

theorem closeDeclaration (hsame : us.map Tree.bare = ts.map Tree.bare)
    (hparts : ∀ b, Begun src a b → Parts src dialect k a b us) (hP : ∀ b, P (.node .plain k a b us)) :
    Leads src (Laid src dialect a .firm ts) (Whole src dialect a .loose P)
      (closeDeclaration k a us) := by
  have hclose : Leads src (Laid src dialect a .firm ts) (Whole src dialect a .loose P)
      (Parser.close k a us) :=
    (Leads.closeShaped (r := .firm) nofun hsame hparts hP).mono fun _ _ h => h.loosen
  intro c hc
  refine .bind (R := fun x d => c = x ∧ c = d) ?_ fun x d _ hd => ?_
  · rintro _ _ ⟨⟩
    exact ⟨hc.placed.within, rfl, rfl⟩
  · obtain ⟨rfl, rfl⟩ := hd
    refine (Leads.look (I := (c = ·)) .mayEnd fun _ => ?_) c rfl
    rintro _ rfl
    refine .ite (fun _ => .pure hc.placed.within ?_) fun _ => hclose _ hc
    exact (hc.congr hsame).whole_behind hc.placed.remark hc.placed.previous_le hc.placed.remark_le
      hparts hP

end Leads

/-! ## Nodes of one parser -/

namespace Yields

variable {p : Parser Tree} {f : α → Parser Tree}

theorem start {f : Nat → Parser Tree}
    (h : ∀ a, Leads src (Laid src dialect a .fresh []) (Whole src dialect a r P) (f a)) :
    Yields src dialect r P (start >>= f) := by
  rintro _ c ⟨hc, rfl⟩
  exact .look (h _ c hc.starts.laid)

/-- Where the first part may be the whole of it. -/
theorem starting {f : Nat → Parser Tree}
    (h : ∀ a, Leads src (Starts src dialect a) (Whole src dialect a r P) (f a)) :
    Yields src dialect r P (Parser.start >>= f) := by
  rintro _ c ⟨hc, rfl⟩
  exact .look (h _ c hc.starts)

theorem look {q : Parser α} (hq : Looks q) (hf : ∀ x, Yields src dialect r P (f x)) :
    Yields src dialect r P (q >>= f) :=
  fun a => .look hq fun x => hf x a

theorem ite {q : Parser Tree} {b : Prop} [Decidable b] (hp : Yields src dialect r P p)
    (hq : Yields src dialect r P q) : Yields src dialect r P (if b then p else q) :=
  fun a => .ite (hp a) (hq a)

theorem ifs {q : Parser Tree} {b : Prop} [Decidable b] (hp : b → Yields src dialect r P p)
    (hq : ¬ b → Yields src dialect r P q) : Yields src dialect r P (if b then p else q) := by
  split
  · exact hp ‹_›
  · exact hq ‹_›

theorem isTyped {f : Bool → Parser Tree}
    (hf : ∀ b, (b = true → dialect = .typed) → Yields src dialect r P (f b)) :
    Yields src dialect r P (isTyped >>= f) := by
  refine fun a c hc => .look (g := Cursor.isTyped) (hf _ (fun htyped => ?_) a c hc)
  rw [← hc.placed.dialect_eq]
  exact beq_iff_eq.mp htyped

theorem failure : Yields src dialect r P (failure : Parser Tree) := fun _ => .failure

theorem mono (hp : Yields src dialect r P p) (hPQ : ∀ t, P t → Q t) : Yields src dialect r Q p :=
  fun a => (hp a).mono fun t _ h => h.mono (hPQ t)

theorem loosen (hp : Yields src dialect .firm P p) : Yields src dialect r P p :=
  fun a => (hp a).mono fun _ _ h => h.loosen

theorem usual (hp : Yields src dialect r (IsToken k) p) : Yields src dialect r Usual p :=
  hp.mono fun _ h => h.toUsual

end Yields

/-! ## Tokens -/

theorem leaf_whole (hc : Starts src dialect a c) (hreal : c.token.isReal = true)
    (hparts : Parts src dialect k c.start c.stop []) (hk : k ≠ .exportClause) :
    ReadsAt src c (Whole src dialect a .firm (IsToken k)) (leaf k) := by
  obtain ⟨hc, rfl⟩ := hc
  have hbegun := hc.begun hreal
  refine .leaf hc.within ⟨hc.advance, rfl, formed_node.mpr ⟨hbegun.lt.le, ?_, by simp⟩, hbegun,
    (Cursor.advance_previous c).ge, ⟨⟨rfl, hk⟩, rfl, rfl⟩⟩
  exact ⟨hc.start, hc.stop.boundary, hparts⟩

theorem this_whole (hc : Starts src dialect a c) (htoken : c.token = .name "this") :
    ReadsAt src c (Whole src dialect a .firm (IsToken .thisExpression))
      (leaf .thisExpression) := by
  have hreal : c.token.isReal = true := by rw [htoken]; rfl
  refine leaf_whole hc hreal ⟨rfl, (hc.placed.begun hreal).lt, ?_⟩ nofun
  -- the last of its characters stands before the end of the token
  obtain ⟨hne, hhere, hstop⟩ := hc.placed.within.name _ htoken
  have hremains := hc.placed.within.remains hne
  rw [hhere] at hremains
  have hlast : Remains src (c.stop - 1) ('s' :: c.rest) := by
    rw [hstop]
    exact hremains.eats (eats_append "thi".toList ('s' :: c.rest) c.start)
  exact hlast.solid rfl

namespace Leads

variable {S : β → Cursor → Prop} {x : Token}

theorem leaf (hk : isTokenKind k = true) (hreal : x.isReal = true) :
    Leads src (fun c => Starts src dialect a c ∧ c.token = x)
      (Whole src dialect a .firm (IsToken k)) (leaf k) := by
  rintro c ⟨⟨hc, rfl⟩, rfl⟩
  exact leaf_whole hc.starts hreal (parts_of_isTokenKind hk) (ne_exportClause_of_isTokenKind hk)

theorem this : Leads src (fun c => Starts src dialect a c ∧ c.token = .name "this")
    (Whole src dialect a .firm (IsToken .thisExpression)) (Parser.leaf .thisExpression) :=
  fun _ hc => this_whole hc.1 hc.2

theorem usual {I : Cursor → Prop} {p : Parser Tree}
    (hp : Leads src I (Whole src dialect a r (IsToken k)) p) :
    Leads src I (Whole src dialect a r Usual) p :=
  hp.mono fun _ _ h => h.mono (·.toUsual)

/-- A node starts with a token that is known. -/
theorem startAt {f : Nat → Parser Tree}
    (hf : ∀ a, Leads src (fun c => Laid src dialect a .fresh [] c ∧ c.token = x)
      (Whole src dialect a r P) (f a)) :
    Leads src (fun c => Starts src dialect a c ∧ c.token = x) (Whole src dialect a r P)
      (start >>= f) := by
  rintro c ⟨⟨hc, rfl⟩, htoken⟩
  exact .look (hf _ c ⟨hc.starts.laid, htoken⟩)

/-- A token behind the parts read so far. -/
theorem leafChild {f : Tree → Parser β}
    (hf : ∀ t, IsToken k t → Leads src (Laid src dialect a .firm (ts ++ [t])) S (f t))
    (hk : isTokenKind k = true) (hreal : x.isReal = true) :
    Leads src (fun c => Laid src dialect a r ts c ∧ c.token = x) S (Parser.leaf k >>= f) := by
  rintro c ⟨hc, rfl⟩
  refine .bind (Leads.leaf hk hreal _ ⟨hc.placed.starts, rfl⟩) fun t d _ ht => ?_
  exact hf t ht.property d (hc.add ht)

theorem thisChild {f : Tree → Parser β}
    (hf : ∀ t, IsToken .thisExpression t →
      Leads src (Laid src dialect a .firm (ts ++ [t])) S (f t)) :
    Leads src (fun c => Laid src dialect a r ts c ∧ c.token = .name "this") S
      (Parser.leaf .thisExpression >>= f) := by
  rintro c ⟨hc, htoken⟩
  refine .bind (this_whole hc.placed.starts htoken) fun t d _ ht => ?_
  exact hf t ht.property d (hc.add ht)

end Leads

/-! ## Several nodes -/

/-- A parser of a node that comes somewhere behind those that were read. -/
def Lays (src : List Char) (dialect : Dialect) (r r' : Reach) (P : Tree → Prop)
    (p : Parser Tree) : Prop :=
  ∀ a ts, Leads src (Laid src dialect a r ts)
    (fun t d => Laid src dialect a r' (ts ++ [t]) d ∧ P t) p

theorem Yields.lays {p : Parser Tree} (hp : Yields src dialect r' P p) :
    Lays src dialect r r' P p :=
  fun _ _ c hc => (hp c.start c hc.placed.starts).mono fun _ _ ht => ⟨hc.add ht, ht.property⟩

/-- A part that does not start with the token under the cursor. -/
theorem Leads.childLaid {p : Parser Tree} {f : Tree → Parser β} {S : β → Cursor → Prop}
    (hp : Lays src dialect r r' P p)
    (hf : ∀ t, P t → Leads src (Laid src dialect a r' (ts ++ [t])) S (f t)) :
    Leads src (Laid src dialect a r ts) S (p >>= f) :=
  fun c hc => .bind (hp a ts c hc) fun t d _ ⟨hd, ht⟩ => hf t ht d hd

/-- A step of a repetition, which lays out one part more or ends it. -/
def Steps (src : List Char) (dialect : Dialect) (r : Reach) (P : Tree → Prop)
    (out : α → List Tree) (step : Parser (Option α)) : Prop :=
  ∀ a ts, Leads src (Laid src dialect a r ts)
    (fun o d => Laid src dialect a r (ts ++ o.elim [] out) d ∧ ∀ x ∈ o, ∀ u ∈ out x, P u) step

theorem foldl_snoc (xs ys : List α) : xs.foldl (fun xs x => xs ++ [x]) ys = ys ++ xs := by
  induction xs generalizing ys with
  | nil => simp
  | cons x xs ih => simp [ih]

namespace Steps

variable {out : α → List Tree}

theorem ends : Leads src (Laid src dialect a r ts)
    (fun o d => Laid src dialect a r (ts ++ o.elim [] out) d ∧ ∀ x ∈ o, ∀ u ∈ out x, P u)
    (pure none) :=
  fun _ hc => .pure hc.placed.within ⟨by simpa using hc, by simp⟩

theorem lays (out : α → List Tree) (x : α) (hP : ∀ u ∈ out x, P u) :
    Leads src (Laid src dialect a r (ts ++ out x))
    (fun o d => Laid src dialect a r (ts ++ o.elim [] out) d ∧ ∀ x ∈ o, ∀ u ∈ out x, P u)
    (pure (some x)) :=
  fun _ hc => .pure hc.placed.within ⟨hc, by simpa using hP⟩

theorem one (ht : P t) : Leads src (Laid src dialect a r (ts ++ [t]))
    (fun o d => Laid src dialect a r (ts ++ o.elim [] fun t => [t]) d ∧ ∀ x ∈ o, ∀ u ∈ [x], P u)
    (pure (some t)) :=
  lays (fun t => [t]) t (by simpa using ht)

/-- Something is read that lays out nothing. -/
theorem skips {x : α} (hnone : out x = []) : Leads src (Laid src dialect a r ts)
    (fun o d => Laid src dialect a r (ts ++ o.elim [] out) d ∧ ∀ x ∈ o, ∀ u ∈ out x, P u)
    (pure (some x)) :=
  fun _ hc => .pure hc.placed.within ⟨by simpa [hnone] using hc, by simp [hnone]⟩

theorem repeated {step : Parser (Option α)} (hstep : Steps src dialect r P out step) (a : Nat)
    (ts : List Tree) : Leads src (Laid src dialect a r ts)
      (fun xs d => Laid src dialect a r (ts ++ xs.flatMap out) d ∧ ∀ u ∈ xs.flatMap out, P u)
      (Parser.repeated step) := by
  let laid (xs : List α) (d : Cursor) : Prop :=
    Laid src dialect a r (ts ++ xs.flatMap out) d ∧ ∀ u ∈ xs.flatMap out, P u
  have hgrown (xs : List α) : Leads src (laid xs)
      (fun o => o.elim (laid xs) fun x => laid (xs ++ [x])) step := by
    refine fun c ⟨hc, hxs⟩ => (hstep a _ c hc).mono fun o d ⟨hd, ho⟩ => ?_
    cases o with
    | none => exact ⟨by simpa using hd, hxs⟩
    | some x =>
      refine ⟨by simpa using hd, ?_⟩
      show ∀ u ∈ (xs ++ [x]).flatMap out, P u
      simp only [List.flatMap_append, List.flatMap_cons, List.flatMap_nil,
        List.append_nil, List.mem_append]
      exact fun u hu => hu.elim (hxs u) (ho x rfl u)
  have hrun := ReadsAt.repeats hgrown []
  simp only [foldl_snoc, List.nil_append] at hrun
  exact fun c hc => hrun c ⟨by simpa using hc, by simp⟩

end Steps

namespace Lists

variable {item : Parser Tree}

theorem repeated {step : Parser (Option Tree)}
    (hstep : Steps src dialect r P (fun t => [t]) step) :
    Lists src dialect r r P (Parser.repeated step) := by
  intro a ts
  have hrun := hstep.repeated a ts
  simpa only [List.flatMap_singleton'] using hrun

theorem untilAt {p : String} (hitem : Yields src dialect r P item) :
    Lists src dialect r r P (Parser.repeated do
      if ← Parser.at? p then return none
      return some (← item)) :=
  .repeated fun _ _ => .look (.at? _) fun _ => .ite Steps.ends
    (.child hitem fun _ ht => Steps.one ht)

theorem behindEach {p : String} (hitem : Yields src dialect r P item) :
    Lists src dialect r r P (Parser.repeated do
      if ← Parser.accept p then return some (← item)
      return none) :=
  .repeated fun _ _ => .accept
    (.child hitem fun _ ht => Steps.one ht) Steps.ends

/-- The items end at the closing punctuator. -/
theorem listUntil_at {stop : String} (hitem : Lays src dialect r .firm P item) (a : Nat)
    (ts : List Tree) : Leads src (Laid src dialect a r ts)
      (fun us d => (∃ e, Laid src dialect a r (ts ++ us) e ∧ e.token = .punct stop ∧
        d = e.advance) ∧ ∀ u ∈ us, P u) (listUntil stop item) := by
  have hstep : Steps src dialect r P (fun t => [t]) (do
      if ← Parser.at? stop then return none
      let x ← item
      if !(← Parser.at? stop) then Parser.expect ","
      return some x) := by
    refine fun a ts => .look (.at? _) fun _ => .ite Steps.ends (.bind (hitem a ts) fun t => ?_)
    refine .known fun ht => .look (.at? _) fun _ => ?_
    have hdone : Leads src (Laid src dialect a r (ts ++ [t])) _ (pure (some t)) := Steps.one ht
    exact .ite (.take (.expect _) fun _ => .weaken hdone) (.weaken hdone)
  intro c hc
  refine .bind (Lists.repeated hstep a ts c hc) fun us d hd ⟨hlaid, hus⟩ => ?_
  refine .expect fun htoken => .pure hlaid.placed.advance.within ?_
  exact ⟨⟨d, hlaid, htoken, rfl⟩, hus⟩

theorem listUntil_of_lays {stop : String} (hitem : Lays src dialect r .firm P item) :
    Lists src dialect r .firm P (listUntil stop item) := by
  intro a ts c hc
  refine (listUntil_at hitem a ts c hc).mono fun us d ⟨⟨e, he, htoken, hd⟩, hus⟩ => ⟨?_, hus⟩
  rw [hd]
  exact he.take he.placed.advance (he.placed.past (by rw [htoken]; rfl))

theorem listUntil {stop : String} (hitem : Yields src dialect .firm P item) :
    Lists src dialect r .firm P (listUntil stop item) :=
  .listUntil_of_lays hitem.lays

theorem commaList_ne_nil (hitem : Yields src dialect r P item) (a : Nat) (ts : List Tree) :
    Leads src (Laid src dialect a r' ts)
      (fun us d => (Laid src dialect a r (ts ++ us) d ∧ ∀ u ∈ us, P u) ∧ us ≠ [])
      (commaList item) := by
  refine .child hitem fun t ht => .children (.behindEach hitem) fun us hus c hc => ?_
  exact .pure hc.placed.within ⟨⟨by simpa using hc, by simpa using ⟨ht, hus⟩⟩, nofun⟩

theorem commaList (hitem : Yields src dialect r P item) :
    Lists src dialect r' r P (commaList item) :=
  fun a ts => (commaList_ne_nil hitem a ts).mono fun _ _ h => h.1

end Lists

/-! ## Nodes that grow -/

/-- A node that starts at byte `a`, with what a step puts around it. -/
def GrownBy (src : List Char) (dialect : Dialect) (a : Nat) (grow : Tree → γ → Tree) (t : Tree)
    (o : Option γ) : Cursor → Prop :=
  o.elim (Whole src dialect a .firm Usual t) fun s => Whole src dialect a .firm Usual (grow t s)

/-- A step that ends with the token before the cursor. -/
theorem Leads.grow {grow : Tree → γ → Tree} {s : Cursor → γ} (us : List Tree)
    (hk : isFree k = true) (hsame : us.map Tree.bare = ts.map Tree.bare)
    (hgrow : ∀ c, grow t (s c) = .node .plain k a c.previous us) :
    Leads src (Laid src dialect a .firm ts) (GrownBy src dialect a grow t) (do
      let d ← Parser.here
      return some (s d)) := by
  intro c hc
  have hwhole := hc.whole_around hk hsame
  rw [← hgrow c] at hwhole
  exact .look (.pure hc.placed.within hwhole)

/-- Steps that each grow the node. -/
theorem Leads.steps {grow : Tree → γ → Tree} {p : Parser (Option γ)}
    (hp : ∀ t, Leads src (Whole src dialect a .firm Usual t) (GrownBy src dialect a grow t) p)
    (t : Tree) :
    Leads src (Whole src dialect a .firm Usual t) (Whole src dialect a .firm Usual) (do
      let ss ← Parser.repeated p
      return ss.foldl grow t) :=
  .bind (ReadsAt.repeats hp t) fun _ _ hc => .pure hc.placed.within hc

end SceneSync.Script
