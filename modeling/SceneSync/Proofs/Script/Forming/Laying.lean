import Mathlib
import SceneSync.Proofs.Script.Forming.Shape

/-!
# Laying out what is read

A rule of the grammar reads the parts of a node one after the other and closes it. The
parts are laid out from the byte at which the node starts: they are formed, in order, and
reach no farther than the token before the cursor or, behind a statement, than the token
under it. What is proved of each way of putting parsers together is proved of such layouts.
-/

namespace SceneSync.Script

open Script.Parser Script.Tree

variable {src : List Char} {dialect : Dialect} {c d : Cursor} {t u : Tree} {ts us : List Tree}
  {a n : Nat} {k : Kind} {ρ : Role} {α β γ : Type}

/-! ## Layouts -/

/-- How far nodes that were read may reach. -/
inductive Reach where
  /-- up to the token under the cursor, and none may have been read yet -/
  | fresh
  /-- up to the token under the cursor -/
  | loose
  /-- up to the end of the token before the cursor -/
  | firm

def Reach.edge : Reach → Cursor → Nat
  | .firm, c => c.previous
  | _, c => c.start

variable {r r' : Reach} {P Q : Tree → Prop}

/-- A cursor at which a node starts. -/
structure Starts (src : List Char) (dialect : Dialect) (a : Nat) (c : Cursor) : Prop where
  placed : c.Placed src dialect
  start : c.start = a

/-- The parts of a node that starts at byte `a`, as far as they were read. -/
structure Laid (src : List Char) (dialect : Dialect) (a : Nat) (r : Reach) (ts : List Tree)
    (c : Cursor) : Prop where
  placed : c.Placed src dialect
  first : Text.Boundary src a
  ordered : Ordered a (r.edge c) ts
  formed : ∀ t ∈ ts, Formed src dialect t
  begun : r = .fresh ∧ c.start = a ∨ Begun src a (max c.previous (lastStop 0 ts))

/-- A node that starts at byte `a` was read. -/
structure Whole (src : List Char) (dialect : Dialect) (a : Nat) (r : Reach) (P : Tree → Prop)
    (t : Tree) (c : Cursor) : Prop where
  placed : c.Placed src dialect
  start : t.start = a
  formed : Formed src dialect t
  begun : Begun src a t.stop
  stop : t.stop ≤ r.edge c
  property : P t

theorem Cursor.Placed.edge_le (hc : c.Placed src dialect) (r : Reach) : r.edge c ≤ c.start := by
  cases r with
  | firm => exact hc.previous_le_start
  | _ => exact Nat.le_refl _

theorem Cursor.Placed.previous_le_edge (hc : c.Placed src dialect) (r : Reach) :
    c.previous ≤ r.edge c := by
  cases r with
  | firm => exact Nat.le_refl _
  | _ => exact hc.previous_le_start

theorem lastStop_zero_le (a : Nat) (ts : List Tree) : lastStop 0 ts ≤ lastStop a ts := by
  cases ts with
  | nil => exact Nat.zero_le a
  | cons t ts => rw [lastStop_cons, lastStop_cons]

@[simp] theorem lastStop_snoc (a : Nat) (ts : List Tree) (t : Tree) :
    lastStop a (ts ++ [t]) = t.stop := by
  simp [lastStop]

theorem lastStop_of_bare (h : us.map Tree.bare = ts.map Tree.bare) :
    lastStop a us = lastStop a ts := by
  have hbare (ts : List Tree) : lastStop a (ts.map Tree.bare) = lastStop a ts := by
    rw [lastStop, lastStop, List.getLast?_map, Option.map_map]
    congr 2
    exact funext fun t => stop_withRole _
  rw [← hbare us, h, hbare]

theorem Starts.laid (h : Starts src dialect a c) : Laid src dialect a .fresh [] c :=
  ⟨h.placed, h.start ▸ h.placed.start, Nat.le_of_eq h.start.symm, by simp, .inl ⟨rfl, h.start⟩⟩

theorem Cursor.Placed.starts (hc : c.Placed src dialect) : Starts src dialect c.start c := ⟨hc, rfl⟩

namespace Laid

theorem congr (h : Laid src dialect a r ts c) (hsame : us.map Tree.bare = ts.map Tree.bare) :
    Laid src dialect a r us c := by
  refine ⟨h.placed, h.first, ?_, formed_of_bare hsame h.formed, ?_⟩
  · rw [← ordered_bare, hsame, ordered_bare]
    exact h.ordered
  · rw [lastStop_of_bare hsame]
    exact h.begun

theorem weaken (h : Laid src dialect a .firm ts c) : Laid src dialect a r ts c := by
  refine ⟨h.placed, h.first, h.ordered.mono (h.placed.previous_le_edge r), h.formed, ?_⟩
  exact .inr (h.begun.resolve_left fun hfresh => by cases hfresh.1)

theorem last_le (h : Laid src dialect a r ts c) : lastStop 0 ts ≤ r.edge c :=
  (lastStop_zero_le a ts).trans h.ordered.last_le

theorem begun_of_ne (h : Laid src dialect a r ts c) (hr : r ≠ .fresh) :
    Begun src a (max c.previous (lastStop 0 ts)) :=
  h.begun.resolve_left fun hfresh => hr hfresh.1

theorem begun_previous (h : Laid src dialect a .firm ts c) : Begun src a c.previous := by
  have hbegun := h.begun_of_ne nofun
  rwa [max_eq_left (show _ ≤ c.previous from h.last_le)] at hbegun

/-- The cursor goes on over tokens. -/
theorem take (h : Laid src dialect a r ts c) (hd : d.Placed src dialect)
    (hpast : Begun src c.start d.previous) : Laid src dialect a .firm ts d := by
  have hedge : r.edge c ≤ d.previous := (h.placed.edge_le r).trans hpast.lt.le
  refine ⟨hd, h.first, h.ordered.mono hedge, h.formed, .inr ?_⟩
  rcases h.begun with ⟨-, hstart⟩ | hbegun
  · rw [hstart] at hpast
    exact hpast.mono (le_max_left _ _)
  · refine hbegun.mono (max_le_max ?_ (Nat.le_refl _))
    exact h.placed.previous_le_start.trans hpast.lt.le

/-- The cursor goes on over tokens or stays. -/
theorem move (h : Laid src dialect a r ts c) (hd : d.Placed src dialect)
    (hpast : d = c ∨ Begun src c.start d.previous) : Laid src dialect a r ts d := by
  rcases hpast with rfl | hpast
  · exact h
  · exact (h.take hd hpast).weaken

/-- A node is read behind the others. -/
theorem add (h : Laid src dialect a r ts c) (ht : Whole src dialect c.start r' P t d) :
    Laid src dialect a r' (ts ++ [t]) d := by
  refine ⟨ht.placed, h.first, ?_, ?_, .inr ?_⟩
  · exact h.ordered.snoc (ht.start ▸ h.placed.edge_le r) ht.formed.nested ht.stop
  · simpa [or_imp, forall_and] using ⟨h.formed, ht.formed⟩
  · rw [lastStop_snoc]
    rcases h.begun with ⟨-, hstart⟩ | hbegun
    · exact (hstart ▸ ht.begun).mono (le_max_right _ _)
    · refine ⟨hbegun.solid, Nat.lt_of_lt_of_le ?_ (le_max_right _ _)⟩
      exact Nat.lt_of_le_of_lt (h.ordered.start_le_stop.trans (h.placed.edge_le r)) ht.begun.lt

/-- The token before the cursor may end farther on. -/
theorem shift (h : Laid src dialect a .firm ts c) (hd : d.Placed src dialect)
    (hle : c.previous ≤ d.previous) : Laid src dialect a .firm ts d :=
  ⟨hd, h.first, h.ordered.mono hle, h.formed,
    .inr ((h.begun_previous.mono hle).mono (le_max_left _ _))⟩

/-- As `add`, for a node that may be empty. -/
theorem append (h : Laid src dialect a .firm ts c) (hd : d.Placed src dialect)
    (hstart : t.start = c.start) (ht : Formed src dialect t) (hle : c.previous ≤ d.previous)
    (hstop : t.stop ≤ d.previous) : Laid src dialect a .firm (ts ++ [t]) d := by
  refine ⟨hd, h.first, ?_, ?_, .inr ((h.begun_previous.mono hle).mono (le_max_left _ _))⟩
  · exact h.ordered.snoc (hstart ▸ h.placed.previous_le_start) ht.nested hstop
  · simpa [or_imp, forall_and] using ⟨h.formed, ht⟩

/-- The last parts may be left out behind the token before the cursor. -/
theorem drop (h : Laid src dialect a .firm (ts ++ us) c) : Laid src dialect a .firm ts c := by
  have hordered := h.ordered.append
  refine ⟨h.placed, h.first, hordered.1.mono hordered.2.start_le_stop,
    fun t ht => h.formed t (by simp [ht]), .inr ?_⟩
  exact h.begun_previous.mono (le_max_left _ _)

/-- What is laid out becomes a node that ends behind the last part. -/
theorem whole (h : Laid src dialect a r ts c) (hlast : lastStop 0 ts ≤ n)
    (hbegun : Begun src a n) (hedge : n ≤ r'.edge c)
    (hshape : Shape src dialect (.node ρ k a n ts)) (hP : P (.node ρ k a n ts)) :
    Whole src dialect a r' P (.node ρ k a n ts) c := by
  have hordered : Ordered a n ts := by
    cases ts with
    | nil => exact hbegun.lt.le
    | cons t ts => exact h.ordered.upto (by rwa [lastStop_cons] at hlast ⊢)
  exact ⟨h.placed, rfl, formed_node.mpr ⟨hordered, hshape, h.formed⟩, hbegun, hedge, hP⟩

theorem last_boundary (h : Laid src dialect a r ts c) :
    Text.Boundary src (max c.previous (lastStop 0 ts)) := by
  rcases max_choice c.previous (lastStop 0 ts) with hmax | hmax <;> rw [hmax]
  · exact h.placed.previous
  · rw [lastStop]
    cases hlast : ts.getLast? with
    | none => exact Text.boundary_zero src
    | some t => exact (h.formed t (List.mem_of_getLast? hlast)).shape.stop

end Laid

namespace Whole

theorem laid (h : Whole src dialect a r P t c) : Laid src dialect a r [t] c := by
  refine ⟨h.placed, h.start ▸ h.formed.shape.start, ?_, by simpa using h.formed, .inr ?_⟩
  · exact ⟨h.start.ge, h.formed.nested, h.stop⟩
  · exact h.begun.mono (le_max_right _ _)

theorem mono (h : Whole src dialect a r P t c) (hPQ : P t → Q t) :
    Whole src dialect a r Q t c :=
  ⟨h.placed, h.start, h.formed, h.begun, h.stop, hPQ h.property⟩

theorem loosen (h : Whole src dialect a .firm P t c) : Whole src dialect a r P t c :=
  ⟨h.placed, h.start, h.formed, h.begun, h.stop.trans (h.placed.previous_le_edge r), h.property⟩

theorem withRole (h : Whole src dialect a r P t c) (hQ : P t → Q (t.withRole ρ)) :
    Whole src dialect a r Q (t.withRole ρ) c := by
  refine ⟨h.placed, ?_, formed_withRole.mpr h.formed, ?_, ?_, hQ h.property⟩
  · rw [start_withRole, h.start]
  · rw [stop_withRole]
    exact h.begun
  · rw [stop_withRole]
    exact h.stop

/-- The cursor goes on behind the node. -/
theorem move (h : Whole src dialect a r P t c) (hd : d.Placed src dialect)
    (hpast : d = c ∨ Begun src c.start d.previous) : Whole src dialect a r P t d := by
  refine ⟨hd, h.start, h.formed, h.begun, ?_, h.property⟩
  rcases hpast with rfl | hpast
  · exact h.stop
  · exact (h.stop.trans (h.placed.edge_le r)).trans (hpast.lt.le.trans (hd.previous_le_edge r))

/-- The node where nothing was read behind it. -/
theorem single (h : Whole src dialect a r P t c) (hlaid : Laid src dialect a r' [t] d) :
    Whole src dialect a r' P t d :=
  ⟨hlaid.placed, h.start, h.formed, h.begun, hlaid.ordered.2.2, h.property⟩

end Whole

/-! ## Parsers on layouts -/

/-- From every cursor with the first property a parser leads to one with the second. -/
def Leads (src : List Char) (I : Cursor → Prop) (R : α → Cursor → Prop) (p : Parser α) : Prop :=
  ∀ c, I c → ReadsAt src c R p

/-- A parser that leaves the cursor where it is. -/
def Looks (p : Parser α) : Prop := ∀ c a d, p c = some (a, d) → d = c

/-- A parser that goes on over tokens. -/
def Takes (src : List Char) (dialect : Dialect) (p : Parser α) : Prop :=
  ∀ c, c.Placed src dialect →
    ReadsAt src c (fun _ d => d.Placed src dialect ∧ Begun src c.start d.previous) p

/-- A parser that goes on over tokens or leaves the cursor where it is. -/
def Moves (src : List Char) (dialect : Dialect) (p : Parser α) : Prop :=
  ∀ c, c.Placed src dialect →
    ReadsAt src c (fun _ d => d.Placed src dialect ∧ (d = c ∨ Begun src c.start d.previous)) p

/-- A parser of a node that starts with the token under the cursor. -/
def Yields (src : List Char) (dialect : Dialect) (r : Reach) (P : Tree → Prop)
    (p : Parser Tree) : Prop :=
  ∀ a, Leads src (Starts src dialect a) (Whole src dialect a r P) p

/-- A parser of nodes that come behind those that were read. -/
def Lists (src : List Char) (dialect : Dialect) (r r' : Reach) (P : Tree → Prop)
    (p : Parser (List Tree)) : Prop :=
  ∀ a ts, Leads src (Laid src dialect a r ts)
    (fun us d => Laid src dialect a r' (ts ++ us) d ∧ ∀ u ∈ us, P u) p

/-! ### Looking at the cursor -/

namespace Looks

theorem bind {p : Parser α} {f : α → Parser β} (hp : Looks p) (hf : ∀ x, Looks (f x)) :
    Looks (p >>= f) := by
  intro c b d hrun
  obtain ⟨x, c', hfirst, hsecond⟩ := run_bind_eq_some.mp hrun
  rw [hf x c' b d hsecond, hp c x c' hfirst]

theorem pure (x : α) : Looks (pure x : Parser α) := by
  rintro c _ _ ⟨⟩
  rfl

theorem failure : Looks (failure : Parser α) := by
  rintro c _ _ ⟨⟩

theorem ite {p q : Parser α} {b : Prop} [Decidable b] (hp : Looks p) (hq : Looks q) :
    Looks (if b then p else q) := by
  split
  · exact hp
  · exact hq

theorem looks (f : Cursor → α) : Looks (do return f (← get) : Parser α) := by
  rintro c _ _ ⟨⟩
  rfl

theorem here : Looks Parser.here := looks id

theorem token : Looks token := looks _

theorem start : Looks start := looks _

theorem isTyped : Looks isTyped := looks _

theorem onNewLine : Looks onNewLine := looks _

theorem ahead : Looks ahead := looks fun c => (c.advance.token, !c.advance.newline)

theorem at? (p : String) : Looks (at? p) := looks fun c => c.token == .punct p

theorem atWord (w : String) : Looks (atWord w) := looks fun c => c.token == .name w

theorem mayEnd : Looks mayEnd :=
  .bind (.at? _) fun _ => .bind .token fun _ => .bind .onNewLine fun _ => .pure _

theorem guardThat (b : Bool) : Looks (guardThat b) := .ite (.pure ()) .failure

end Looks

/-! ### Moving on -/

theorem Looks.moves {p : Parser α} (hp : Looks p) : Moves src dialect p := by
  intro c hc x d hrun
  obtain rfl := hp c x d hrun
  exact ⟨hc.within, hc, .inl rfl⟩

theorem Takes.moves {p : Parser α} (hp : Takes src dialect p) : Moves src dialect p :=
  fun c hc => (hp c hc).mono fun _ _ h => ⟨h.1, .inr h.2⟩

namespace Moves

theorem bind {p : Parser α} {f : α → Parser β} (hp : Moves src dialect p)
    (hf : ∀ x, Moves src dialect (f x)) : Moves src dialect (p >>= f) := by
  intro c hc
  refine .bind (hp c hc) fun x d _ ⟨hd, hpast⟩ => (hf x d hd).mono fun _ e ⟨he, hpast'⟩ => ⟨he, ?_⟩
  rcases hpast with rfl | hpast
  · exact hpast'
  · rcases hpast' with rfl | hpast'
    · exact .inr hpast
    · exact .inr (hpast.mono (hd.previous_le_start.trans hpast'.lt.le))

theorem ite {p q : Parser α} {b : Prop} [Decidable b] (hp : Moves src dialect p)
    (hq : Moves src dialect q) : Moves src dialect (if b then p else q) := by
  split
  · exact hp
  · exact hq

theorem pure (x : α) : Moves src dialect (pure x : Parser α) := (Looks.pure x).moves

theorem look {p : Parser α} {f : α → Parser β} (hp : Looks p)
    (hf : ∀ x, Moves src dialect (f x)) : Moves src dialect (p >>= f) :=
  .bind hp.moves hf

end Moves

namespace Takes

theorem bind {p : Parser α} {f : α → Parser β} (hp : Takes src dialect p)
    (hf : ∀ x, Moves src dialect (f x)) : Takes src dialect (p >>= f) := by
  intro c hc
  refine .bind (hp c hc) fun x d _ ⟨hd, hpast⟩ => (hf x d hd).mono fun _ e ⟨he, hpast'⟩ => ⟨he, ?_⟩
  rcases hpast' with rfl | hpast'
  · exact hpast
  · exact hpast.mono (hd.previous_le_start.trans hpast'.lt.le)

theorem look {p : Parser α} {f : α → Parser β} (hp : Looks p)
    (hf : ∀ x, Takes src dialect (f x)) : Takes src dialect (p >>= f) := by
  intro c hc b d hrun
  obtain ⟨x, c', hfirst, hsecond⟩ := run_bind_eq_some.mp hrun
  rw [hp c x c' hfirst] at hsecond
  exact hf x c hc b d hsecond

end Takes

theorem ReadsAt.set {f : Unit → Parser β} {S : β → Cursor → Prop} (h : ReadsAt src d S (f ())) :
    ReadsAt src c S (set d >>= f) := h

@[simp] theorem Cursor.jump_previous (c : Cursor) (n : Nat) (cs : List Char) :
    (c.jump n cs).previous = n :=
  Cursor.read_previous _ _ _ _

/-- A token that stands in the source. -/
def Token.isReal : Token → Bool
  | .done | .invalid => false
  | _ => true

theorem Cursor.Placed.begun (hc : c.Placed src dialect) (h : c.token.isReal = true) :
    Begun src c.start c.stop :=
  hc.token (fun hdone => by simp [hdone, Token.isReal] at h)
    (fun hinvalid => by simp [hinvalid, Token.isReal] at h)

theorem Cursor.Placed.past (hc : c.Placed src dialect) (h : c.token.isReal = true) :
    Begun src c.start c.advance.previous := by
  rw [Cursor.advance_previous]
  exact hc.begun h

theorem Moves.accept (p : String) : Moves src dialect (accept p) := by
  intro c hc
  refine .look (g := fun c => c.token == .punct p) (.ite (fun htoken => ?_) fun _ => ?_)
  · refine .advance (.pure hc.advance.within ⟨hc.advance, .inr (hc.past ?_)⟩)
    rw [beq_iff_eq.mp htoken]
    rfl
  · exact .pure hc.within ⟨hc, .inl rfl⟩

theorem Moves.acceptWord (w : String) : Moves src dialect (acceptWord w) := by
  intro c hc
  refine .look (g := fun c => c.token == .name w) (.ite (fun htoken => ?_) fun _ => ?_)
  · refine .advance (.pure hc.advance.within ⟨hc.advance, .inr (hc.past ?_)⟩)
    rw [beq_iff_eq.mp htoken]
    rfl
  · exact .pure hc.within ⟨hc, .inl rfl⟩

theorem Moves.acceptOneOf (ps : List String) : Moves src dialect (acceptOneOf ps) := by
  refine .look .token fun t => ?_
  split
  · exact .ite (.accept _) (.pure _)
  · exact .pure _

theorem Moves.acceptTypedWord (w : String) : Moves src dialect (acceptTypedWord w) :=
  .look .isTyped fun _ => .ite (.acceptWord w) (.pure _)

theorem Takes.expect (p : String) : Takes src dialect (expect p) := by
  intro c hc
  refine .accept (fun htoken => ?_) fun _ => nofun
  refine .pure hc.advance.within ⟨hc.advance, hc.past ?_⟩
  rw [htoken]
  rfl

theorem Takes.expectWord (w : String) : Takes src dialect (expectWord w) := by
  intro c hc
  refine .acceptWord (fun htoken => ?_) fun _ => nofun
  refine .pure hc.advance.within ⟨hc.advance, hc.past ?_⟩
  rw [htoken]
  rfl

theorem Moves.semicolon : Moves src dialect semicolon :=
  .bind (.accept _) fun _ => .ite (.look .mayEnd fun _ => (Looks.guardThat _).moves) (.pure _)

/-! ### Layouts that grow -/

/-- What holds before each step of a repetition, and what holds when a step ends it. -/
theorem ReadsAt.repeats {I J : γ → Cursor → Prop} {g : γ → α → γ} {step : Parser (Option α)}
    (hstep : ∀ x, Leads src (I x) (fun o => o.elim (J x) fun a => I (g x a)) step) (x : γ) :
    Leads src (I x) (fun as => J (as.foldl g x)) (Parser.repeated step) := by
  -- by induction on the bound, with what is kept of the results in `done`, the last in front
  have haux (n : Nat) (done : List α) :
      Leads src (I (done.reverse.foldl g x)) (fun as => J (as.foldl g x))
        (Parser.repeatAux step n done) := by
    induction n generalizing done with
    | zero => exact fun _ _ => nofun
    | succ n ih =>
      intro c hc
      refine .bind (hstep _ c hc) fun o d hd ho => ?_
      split
      · exact .pure hd ho
      · exact ih _ d (by simpa using ho)
  exact fun c hc => haux (c.size + 2) [] c hc

/-- What every step keeps a repetition keeps. -/
theorem ReadsAt.keeps {I : Cursor → Prop} {step : Parser (Option α)}
    (hstep : Leads src I (fun _ => I) step) : Leads src I (fun _ => I) (Parser.repeated step) := by
  refine ReadsAt.repeats (I := fun _ => I) (J := fun _ => I) (g := fun _ _ => ())
    (fun _ c hc => ?_) ()
  refine (hstep c hc).mono fun o d hd => ?_
  cases o <;> exact hd

theorem Moves.repeated {step : Parser (Option α)} (hstep : Moves src dialect step) :
    Moves src dialect (Parser.repeated step) := by
  intro c hc
  refine ReadsAt.keeps (I := fun d => d.Placed src dialect ∧ (d = c ∨ Begun src c.start d.previous))
    (fun d ⟨hd, hpast⟩ => (hstep d hd).mono fun _ e ⟨he, hpast'⟩ => ⟨he, ?_⟩) c ⟨hc, .inl rfl⟩
  rcases hpast with rfl | hpast
  · exact hpast'
  · rcases hpast' with rfl | hpast'
    · exact .inr hpast
    · exact .inr (hpast.mono (hd.previous_le_start.trans hpast'.lt.le))

theorem ReadsAt.lookAt {p : Parser α} {f : α → Parser β} {S : β → Cursor → Prop} (hp : Looks p)
    (hf : ∀ x, ReadsAt src c S (f x)) : ReadsAt src c S (p >>= f) := by
  intro b d hrun
  obtain ⟨x, c', hfirst, hsecond⟩ := run_bind_eq_some.mp hrun
  rw [hp c x c' hfirst] at hsecond
  exact hf x b d hsecond

namespace Leads

variable {I : Cursor → Prop} {R : α → Cursor → Prop} {p : Parser α} {f : α → Parser β}
  {S : β → Cursor → Prop}

theorem look (hp : Looks p) (hf : ∀ x, Leads src I S (f x)) : Leads src I S (p >>= f) :=
  fun c hc => .lookAt hp fun x => hf x c hc

theorem bind {J : α → Cursor → Prop} (hp : Leads src I J p)
    (hf : ∀ x, Leads src (J x) S (f x)) : Leads src I S (p >>= f) :=
  fun c hc => .bind (hp c hc) fun x d _ hx => hf x d hx

/-- Looking at the token tells what it is. -/
theorem token {f : Token → Parser β}
    (hf : ∀ x, Leads src (fun c => I c ∧ c.token = x) S (f x)) : Leads src I S (token >>= f) :=
  fun c hc => .look (hf c.token c ⟨hc, rfl⟩)

theorem atWord {w : String} {f : Bool → Parser β}
    (hf : ∀ b, Leads src (fun c => I c ∧ (b = true → c.token = .name w)) S (f b)) :
    Leads src I S (atWord w >>= f) :=
  fun c hc => .look (g := fun c => c.token == .name w) (hf _ c ⟨hc, fun h => beq_iff_eq.mp h⟩)

theorem at? {w : String} {f : Bool → Parser β}
    (hf : ∀ b, Leads src (fun c => I c ∧ (b = true → c.token = .punct w)) S (f b)) :
    Leads src I S (at? w >>= f) :=
  fun c hc => .look (g := fun c => c.token == .punct w) (hf _ c ⟨hc, fun h => beq_iff_eq.mp h⟩)

theorem here {f : Cursor → Parser β} (hf : ∀ x, Leads src (fun c => I c ∧ c = x) S (f x)) :
    Leads src I S (here >>= f) :=
  fun c hc => .look (hf c c ⟨hc, rfl⟩)

theorem guardThat {b : Bool} {f : Unit → Parser β} (h : b = true → Leads src I S (f ())) :
    Leads src I S (guardThat b >>= f) :=
  fun c hc => .guardThat fun hb => h hb c hc

theorem forget {K : Cursor → Prop} (h : Leads src I R p) : Leads src (fun c => I c ∧ K c) R p :=
  fun c hc => h c hc.1

theorem known {q : Prop} (h : q → Leads src I R p) : Leads src (fun c => I c ∧ q) R p :=
  fun c hc => h hc.2 c hc.1

/-- Where the token was looked for the branch knows that it is there. -/
theorem ifSeen {x : Token} {b : Bool} {p q : Parser α}
    (hp : Leads src (fun c => I c ∧ c.token = x) R p) (hq : Leads src I R q) :
    Leads src (fun c => I c ∧ (b = true → c.token = x)) R (if b = true then p else q) := by
  intro c hc
  split
  · exact hp c ⟨hc.1, hc.2 ‹_›⟩
  · exact hq c hc.1

theorem seen {x : Token} {q : Prop} (hq : q) (h : Leads src (fun c => I c ∧ c.token = x) R p) :
    Leads src (fun c => I c ∧ (q → c.token = x)) R p :=
  fun c hc => h c ⟨hc.1, hc.2 hq⟩

theorem ifs {b : Prop} [Decidable b] {p q : Parser α} (hp : b → Leads src I R p)
    (hq : ¬ b → Leads src I R q) : Leads src I R (if b then p else q) := by
  split
  · exact hp ‹_›
  · exact hq ‹_›

theorem attempt {J : α → Cursor → Prop} {f : Option α → Parser β} (hp : Leads src I J p)
    (hread : ∀ x, Leads src (J x) S (f (some x))) (hnone : Leads src I S (f none)) :
    Leads src I S (attempt p >>= f) := by
  intro c hc b d hrun
  obtain ⟨o, c', hattempt, hrest⟩ := run_bind_eq_some.mp hrun
  rw [Parser.attempt] at hattempt
  split at hattempt
  · rename_i x e hp'
    obtain ⟨rfl, rfl⟩ := by simpa using hattempt
    exact hread x e (hp c hc x e hp').2 b d hrest
  · obtain ⟨rfl, rfl⟩ := by simpa using hattempt
    exact hnone c hc b d hrest

theorem ite {p q : Parser α} {b : Prop} [Decidable b] (hp : Leads src I R p)
    (hq : Leads src I R q) : Leads src I R (if b then p else q) := by
  split
  · exact hp
  · exact hq

theorem failure : Leads src I R (failure : Parser α) := fun _ _ => nofun

theorem failed {f : α → Parser β} : Leads src I S ((Alternative.failure : Parser α) >>= f) :=
  fun _ _ => nofun

theorem weaken (h : Leads src (Laid src dialect a r ts) R p) :
    Leads src (Laid src dialect a .firm ts) R p :=
  fun c hc => h c hc.weaken

theorem take (hp : Takes src dialect p) (hf : ∀ x, Leads src (Laid src dialect a .firm ts) S (f x)) :
    Leads src (Laid src dialect a r ts) S (p >>= f) :=
  fun c hc => .bind (hp c hc.placed) fun x d _ ⟨hd, hpast⟩ => hf x d (hc.take hd hpast)

theorem advance {x : Token} {f : Unit → Parser β} (hreal : x.isReal = true)
    (hf : Leads src (Laid src dialect a .firm ts) S (f ())) :
    Leads src (fun c => Laid src dialect a r ts c ∧ c.token = x) S (advance >>= f) := by
  rintro c ⟨hc, rfl⟩
  exact .advance (hf _ (hc.take hc.placed.advance (hc.placed.past hreal)))

/-- A token is taken whatever it is. -/
theorem skip {f : Unit → Parser β} (hf : Leads src (Laid src dialect a .firm ts) S (f ())) :
    Leads src (Laid src dialect a .firm ts) S (Parser.advance >>= f) := by
  refine fun c hc => .advance (hf _ (hc.shift hc.placed.advance ?_))
  rw [Cursor.advance_previous]
  exact hc.placed.previous_le_start.trans hc.placed.start_le

theorem move (hp : Moves src dialect p) (hf : ∀ x, Leads src (Laid src dialect a r ts) S (f x)) :
    Leads src (Laid src dialect a r ts) S (p >>= f) :=
  fun c hc => .bind (hp c hc.placed) fun x d _ ⟨hd, hpast⟩ => hf x d (hc.move hd hpast)

theorem child {p : Parser Tree} {f : Tree → Parser β} (hp : Yields src dialect r' P p)
    (hf : ∀ t, P t → Leads src (Laid src dialect a r' (ts ++ [t])) S (f t)) :
    Leads src (Laid src dialect a r ts) S (p >>= f) :=
  fun c hc => .bind (hp c.start c hc.placed.starts) fun t d _ ht => hf t ht.property d (hc.add ht)

theorem children {p : Parser (List Tree)} {f : List Tree → Parser β}
    (hp : Lists src dialect r r' P p)
    (hf : ∀ us, (∀ u ∈ us, P u) → Leads src (Laid src dialect a r' (ts ++ us)) S (f us)) :
    Leads src (Laid src dialect a r ts) S (p >>= f) :=
  fun c hc => .bind (hp a ts c hc) fun us d _ ⟨hlaid, hus⟩ => hf us hus d hlaid

/-- A node from byte `a` on is read whole, and something may follow that belongs to it. -/
theorem first {p : Parser Tree} {f : Tree → Parser β} (hp : Yields src dialect r P p)
    (hf : ∀ t, P t → Leads src (Whole src dialect a r P t) S (f t)) :
    Leads src (Starts src dialect a) S (p >>= f) :=
  fun c hc => .bind (hp a c hc) fun t d _ ht => hf t ht.property d ht

/-- What is read behind a node does not belong to it. -/
theorem pass (hp : Moves src dialect p) (hf : ∀ x, Leads src (Whole src dialect a r P t) S (f x)) :
    Leads src (Whole src dialect a r P t) S (p >>= f) :=
  fun c hc => .bind (hp c hc.placed) fun x d _ ⟨hd, hpast⟩ => hf x d (hc.move hd hpast)

/-- Parts may follow the first one, or it is the whole of it. -/
theorem more {p : Parser (List Tree)} {f : List Tree → Parser β} (hp : Lists src dialect r r' Q p)
    (hnone : Leads src (Whole src dialect a r' P t) S (f []))
    (hmore : ∀ us, us ≠ [] → Leads src (Laid src dialect a r' ([t] ++ us)) S (f us)) :
    Leads src (Whole src dialect a r P t) S (p >>= f) := by
  refine fun c hc => .bind (hp a [t] c hc.laid) fun us d _ ⟨hlaid, _⟩ => ?_
  by_cases hus : us = []
  · subst hus
    exact hnone d (hc.single (by simpa using hlaid))
  · exact hmore us hus d hlaid

theorem laid (h : Leads src (Laid src dialect a .fresh []) R p) :
    Leads src (Starts src dialect a) R p :=
  fun c hc => h c hc.laid

theorem behind (h : Leads src (Laid src dialect a r [t]) R p) :
    Leads src (Whole src dialect a r P t) R p :=
  fun c hc => h c hc.laid

theorem startSeen {K : Cursor → Prop}
    (h : Leads src (fun c => Laid src dialect a .fresh [] c ∧ K c) R p) :
    Leads src (fun c => Starts src dialect a c ∧ K c) R p :=
  fun c hc => h c ⟨hc.1.laid, hc.2⟩

/-- What was read last is left out of the node. -/
theorem dropping (h : Leads src (Laid src dialect a .firm ts) R p) :
    Leads src (Laid src dialect a .firm (ts ++ us)) R p :=
  fun c hc => h c hc.drop

theorem behindSeen {K : Cursor → Prop}
    (h : Leads src (fun c => Laid src dialect a r [t] c ∧ K c) R p) :
    Leads src (fun c => Whole src dialect a r P t c ∧ K c) R p :=
  fun c hc => h c ⟨hc.1.laid, hc.2⟩

end Leads

end SceneSync.Script
