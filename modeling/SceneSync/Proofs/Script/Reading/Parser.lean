import Mathlib
import SceneSync.Proofs.Script.Reading.Token
import SceneSync.Script.Cursor

/-!
# Parsers in a source

A cursor stands in a source: the characters that it knows are those of the source at its
byte, and before its token blanks and comments go back to the token before it. Every way
of putting parsers together leads from such cursors to such cursors.
-/

namespace SceneSync.Script

variable {src : List Char}

/-- The characters `cs` are the source from byte `n` on. -/
def Remains (src : List Char) (n : Nat) (cs : List Char) : Prop :=
  ∃ front, src = front ++ cs ∧ width front = n

theorem Remains.eats {cs ds : List Char} {n m : Nat} (h : Remains src n cs) (he : Eats cs n ds m) :
    Remains src m ds := by
  obtain ⟨front, rfl, rfl⟩ := h
  obtain ⟨word, rfl, rfl⟩ := he
  exact ⟨front ++ word, by simp, width_append front word⟩

theorem Eats.ne_nil {cs ds : List Char} {n m : Nat} (h : Eats cs n ds m) (hne : ds ≠ []) :
    cs ≠ [] := by
  obtain ⟨word, rfl, -⟩ := h
  simp [hne]

theorem Eats.width_eq {cs ds word : List Char} {n m : Nat} (h : Eats cs n ds m)
    (hword : cs = word ++ ds) : m = n + width word := by
  obtain ⟨word', rfl, rfl⟩ := h
  rw [List.append_cancel_right hword]

/-- The token of a cursor is written as a word, which is not at the end of the source. -/
def Cursor.Shows (c : Cursor) (word : List Char) : Prop :=
  c.here ≠ [] ∧ c.here = word ++ c.rest ∧ c.stop = c.start + width word

/-- A cursor in a source. Where no characters are left the byte does not matter. -/
structure Cursor.In (src : List Char) (c : Cursor) : Prop where
  gap : c.here ≠ [] → ∃ gap, Trivia gap ∧ Remains src c.previous (gap ++ c.here) ∧
    c.start = c.previous + width gap
  rest : c.rest ≠ [] → Remains src c.stop c.rest
  name : ∀ w, c.token = .name w → c.Shows w.toList
  punct : ∀ p, c.token = .punct p → c.Shows p.toList

namespace Cursor

variable {c : Cursor}

theorem in_read {d : Dialect} {size n : Nat} {cs : List Char} (h : cs ≠ [] → Remains src n cs) :
    (read d size n cs).In src := by
  rw [read]
  split
  · exact ⟨fun hne => ⟨[], .nil, h hne, rfl⟩, fun hne => absurd rfl hne, nofun, nofun⟩
  · rename_i g hskip
    obtain ⟨heats, -, hgap⟩ := skipGap_trivia hskip
    have hscans := scans_scan g.rest g.width
    have hrest := heats.trans hscans.eats
    generalize hr : Token.scan g.rest g.width = r at *
    have hshows {word : List Char} (hdone : r.token ≠ .done) (hword : g.rest = word ++ r.rest) :
        g.rest ≠ [] ∧ g.rest = word ++ r.rest ∧ r.stop = g.width + width word := by
      refine ⟨fun hnil => hdone ?_, hword, hscans.eats.width_eq hword⟩
      rw [← hr, hnil]
      rfl
    refine ⟨fun hne => ?_, fun hne => (h (hrest.ne_nil hne)).eats hrest,
      fun w hw => hshows (by simp_all) (hscans.name w hw),
      fun p hp => hshows (by simp_all) (hscans.punct p hp)⟩
    obtain ⟨gap, htrivia, rfl, hwidth⟩ := hgap hne
    exact ⟨gap, htrivia, h (heats.ne_nil hne), hwidth⟩

theorem read_previous (dialect : Dialect) (size n : Nat) (cs : List Char) :
    (read dialect size n cs).previous = n := by
  rw [read]
  split <;> rfl

@[simp] theorem advance_previous (c : Cursor) : c.advance.previous = c.stop :=
  read_previous _ _ _ _

theorem In.advance (hc : c.In src) : c.advance.In src := in_read hc.rest

theorem In.remains (hc : c.In src) (hne : c.here ≠ []) : Remains src c.start c.here := by
  obtain ⟨gap, -, hgap, hstart⟩ := hc.gap hne
  rw [hstart]
  exact hgap.eats (eats_append gap c.here c.previous)

/-- A cursor may jump over characters behind its token. -/
theorem In.jump (hc : c.In src) {cs : List Char} {n : Nat} (h : Eats c.rest c.stop cs n) :
    (c.jump n cs).In src :=
  in_read fun hne => (hc.rest (h.ne_nil hne)).eats h

/-- A cursor may read its token in another way. -/
theorem In.jump_here (hc : c.In src) {cs : List Char} {n : Nat} (h : Eats c.here c.start cs n) :
    (c.jump n cs).In src :=
  in_read fun hne => (hc.remains (h.ne_nil hne)).eats h

end Cursor

/-! ## Parsers -/

variable {α β : Type} {P P' : α → Prop} {Q : β → Prop}

/-- From every cursor in a source a parser leads to another one, with a result that has a
property. -/
def Reads (src : List Char) (P : α → Prop) (p : Parser α) : Prop :=
  ∀ c a d, c.In src → p c = some (a, d) → d.In src ∧ P a

theorem run_bind_eq_some {p : Parser α} {f : α → Parser β} {c d : Cursor} {b : β} :
    (p >>= f) c = some (b, d) ↔ ∃ a c', p c = some (a, c') ∧ f a c' = some (b, d) := by
  simp only [bind, StateT.bind, Option.bind_eq_some_iff, Prod.exists]

namespace Reads

open Script.Parser

theorem mono {p : Parser α} (hp : Reads src P p) (h : ∀ a, P a → P' a) : Reads src P' p :=
  fun c a d hc hrun => ⟨(hp c a d hc hrun).1, h a (hp c a d hc hrun).2⟩

theorem bind {p : Parser α} {f : α → Parser β} (hp : Reads src P p)
    (hf : ∀ a, P a → Reads src Q (f a)) : Reads src Q (p >>= f) := by
  intro c b d hc hrun
  obtain ⟨a, c', hfirst, hsecond⟩ := run_bind_eq_some.mp hrun
  obtain ⟨hc', ha⟩ := hp c a c' hc hfirst
  exact hf a ha c' b d hc' hsecond

/-- Where only the cursor matters of what was read first. -/
theorem after {p : Parser α} {f : α → Parser β} (hp : Reads src (fun _ => True) p)
    (hf : ∀ a, Reads src Q (f a)) : Reads src Q (p >>= f) :=
  hp.bind fun a _ => hf a

theorem pure {a : α} (ha : P a) : Reads src P (pure a : Parser α) := by
  rintro c _ _ hc ⟨⟩
  exact ⟨hc, ha⟩

theorem failure : Reads src P (failure : Parser α) := by
  rintro c a d hc ⟨⟩

theorem failed {f : α → Parser β} : Reads src Q ((Alternative.failure : Parser α) >>= f) :=
  .bind (P := fun _ => False) .failure nofun

theorem ite {p q : Parser α} {b : Prop} [Decidable b] (hp : Reads src P p)
    (hq : Reads src P q) : Reads src P (if b then p else q) := by
  split
  · exact hp
  · exact hq

/-! ### Looking at the cursor -/

theorem here : Reads src (·.In src) Parser.here := by
  rintro c _ _ hc ⟨⟩
  exact ⟨hc, hc⟩

theorem set {c : Cursor} (hc : c.In src) : Reads src (fun _ => True) (set c : Parser Unit) := by
  rintro _ _ _ _ ⟨⟩
  exact ⟨hc, trivial⟩

theorem looks (f : Cursor → α) : Reads src (fun _ => True) (do return f (← get) : Parser α) := by
  rintro c _ _ hc ⟨⟩
  exact ⟨hc, trivial⟩

theorem token : Reads src (fun _ => True) token := looks _

theorem start : Reads src (fun _ => True) start := looks _

theorem isTyped : Reads src (fun _ => True) isTyped := looks _

theorem onNewLine : Reads src (fun _ => True) onNewLine := looks _

theorem ahead : Reads src (fun _ => True) ahead := looks fun c =>
  (c.advance.token, !c.advance.newline)

theorem at? (p : String) : Reads src (fun _ => True) (at? p) := looks fun c => c.token == .punct p

theorem atWord (w : String) : Reads src (fun _ => True) (atWord w) :=
  looks fun c => c.token == .name w

theorem mayEnd : Reads src (fun _ => True) mayEnd :=
  .after (.at? _) fun _ => .after .token fun _ => .after .onNewLine fun _ => .pure trivial

theorem guardThat (b : Bool) : Reads src (fun _ => True) (guardThat b) :=
  .ite (.pure trivial) .failure

theorem guarded {b : Bool} {f : Unit → Parser β} (h : b = true → Reads src Q (f ())) :
    Reads src Q (Parser.guardThat b >>= f) := by
  cases b with
  | true => exact h rfl
  | false => exact .failed

/-! ### Moving on -/

theorem advance : Reads src (fun _ => True) advance := by
  rintro c _ _ hc ⟨⟩
  exact ⟨hc.advance, trivial⟩

theorem accept (p : String) : Reads src (fun _ => True) (accept p) :=
  .after (.at? p) fun _ => .ite (.after .advance fun _ => .pure trivial) (.pure trivial)

theorem acceptWord (w : String) : Reads src (fun _ => True) (acceptWord w) :=
  .after (.atWord w) fun _ => .ite (.after .advance fun _ => .pure trivial) (.pure trivial)

theorem acceptOneOf (ps : List String) : Reads src (fun _ => True) (acceptOneOf ps) := by
  refine .after .token fun t => ?_
  split
  · exact .ite (.accept _) (.pure trivial)
  · exact .pure trivial

theorem acceptTypedWord (w : String) : Reads src (fun _ => True) (acceptTypedWord w) :=
  .after .isTyped fun _ => .ite (.acceptWord w) (.pure trivial)

theorem expect (p : String) : Reads src (fun _ => True) (expect p) :=
  .after (.accept p) fun _ => .guardThat _

theorem expectWord (w : String) : Reads src (fun _ => True) (expectWord w) :=
  .after (.acceptWord w) fun _ => .guardThat _

theorem semicolon : Reads src (fun _ => True) semicolon :=
  .after (.accept _) fun _ => .ite (.after .mayEnd fun _ => .guardThat _) (.pure trivial)

/-! ### Several results -/

theorem attempt {p : Parser α} (hp : Reads src P p) :
    Reads src (fun o => ∀ a ∈ o, P a) (attempt p) := by
  intro c o d hc hrun
  rw [Parser.attempt] at hrun
  split at hrun
  · rename_i a d' hp'
    obtain ⟨rfl, rfl⟩ := by simpa using hrun
    obtain ⟨hd, ha⟩ := hp c a d' hc hp'
    exact ⟨hd, by simpa using ha⟩
  · obtain ⟨rfl, rfl⟩ := by simpa using hrun
    exact ⟨hc, by simp⟩

theorem repeatAux {step : Parser (Option α)} (hstep : Reads src (fun o => ∀ a ∈ o, P a) step)
    (n : Nat) {done : List α} (hdone : ∀ a ∈ done, P a) :
    Reads src (fun as => ∀ a ∈ as, P a) (repeatAux step n done) := by
  induction n generalizing done with
  | zero => exact .failure
  | succ n ih =>
    refine .bind hstep fun o ho => ?_
    split
    · exact .pure (by simpa using hdone)
    · rename_i a
      exact ih (by simpa using ⟨ho a rfl, hdone⟩)

theorem repeated {step : Parser (Option α)} (hstep : Reads src (fun o => ∀ a ∈ o, P a) step) :
    Reads src (fun as => ∀ a ∈ as, P a) (repeated step) :=
  .after (looks id) fun _ => .repeatAux hstep _ (by simp)

/-- A repetition of which only the cursor matters. -/
theorem skips {step : Parser (Option α)} (hstep : Reads src (fun _ => True) step) :
    Reads src (fun _ => True) (Parser.repeated step) :=
  (Reads.repeated (P := fun _ => True) (hstep.mono fun _ _ _ _ => trivial)).mono
    fun _ _ => trivial

theorem untilAt {p : String} {item : Parser α} (hitem : Reads src P item) :
    Reads src (fun as => ∀ a ∈ as, P a) (Parser.repeated do
      if ← Parser.at? p then return none
      return some (← item)) :=
  .repeated (.after (.at? _) fun _ => .ite (.pure (by simp))
    (.bind hitem fun a ha => .pure (by simpa using ha)))

theorem behindEach {p : String} {item : Parser α} (hitem : Reads src P item) :
    Reads src (fun as => ∀ a ∈ as, P a) (Parser.repeated do
      if ← Parser.accept p then return some (← item)
      return none) :=
  .repeated (.after (.accept _) fun _ => .ite
    (.bind hitem fun a ha => .pure (by simpa using ha)) (.pure (by simp)))

theorem listUntil {stop : String} {item : Parser α} (hitem : Reads src P item) :
    Reads src (fun as => ∀ a ∈ as, P a) (listUntil stop item) := by
  refine .bind (.repeated ?_) fun as has => .after (.expect _) fun _ => .pure has
  refine .after (.at? _) fun _ => .ite (.pure (by simp)) ?_
  refine .bind hitem fun a ha => .after (.at? _) fun _ => ?_
  exact .ite (.after (.expect _) fun _ => .pure (by simpa using ha)) (.pure (by simpa using ha))

theorem commaList {item : Parser α} (hitem : Reads src P item) :
    Reads src (fun as => ∀ a ∈ as, P a) (commaList item) := by
  refine .bind hitem fun a ha => .bind (.behindEach hitem) fun as has => .pure ?_
  simpa using ⟨ha, has⟩

end Reads

/-! ## Parsers at a cursor -/

/-- From the cursor `c` a parser leads to one in the source. What is known of the result
may speak of the cursor behind it. -/
def ReadsAt (src : List Char) (c : Cursor) (R : α → Cursor → Prop) (p : Parser α) : Prop :=
  ∀ a d, p c = some (a, d) → d.In src ∧ R a d

theorem Reads.at {p : Parser α} {c : Cursor} {R : α → Cursor → Prop} (hp : Reads src P p)
    (hc : c.In src) (h : ∀ a d, P a → R a d) : ReadsAt src c R p :=
  fun a d hrun => (hp c a d hc hrun).imp_right (h a d)

theorem Reads.of_at {p : Parser α} (h : ∀ c, c.In src → ReadsAt src c (fun a _ => P a) p) :
    Reads src P p :=
  fun c a d hc => h c hc a d

namespace ReadsAt

open Script.Parser

variable {c : Cursor} {R : α → Cursor → Prop} {S : β → Cursor → Prop} {f : α → Parser β}

theorem bind {p : Parser α} (hp : ReadsAt src c R p)
    (hf : ∀ a d, d.In src → R a d → ReadsAt src d S (f a)) : ReadsAt src c S (p >>= f) := by
  intro b d hrun
  obtain ⟨a, c', hfirst, hsecond⟩ := run_bind_eq_some.mp hrun
  obtain ⟨hc', ha⟩ := hp a c' hfirst
  exact hf a c' hc' ha b d hsecond

theorem mono {p : Parser α} {R' : α → Cursor → Prop} (hp : ReadsAt src c R p)
    (h : ∀ a d, R a d → R' a d) : ReadsAt src c R' p :=
  fun a d hrun => (hp a d hrun).imp_right (h a d)

theorem ite {p q : Parser α} {b : Prop} [Decidable b] (hp : b → ReadsAt src c R p)
    (hq : ¬ b → ReadsAt src c R q) : ReadsAt src c R (if b then p else q) := by
  split
  · exact hp ‹_›
  · exact hq ‹_›

theorem pure {a : α} (hc : c.In src) (ha : R a c) : ReadsAt src c R (pure a : Parser α) := by
  rintro _ _ ⟨⟩
  exact ⟨hc, ha⟩

theorem look {g : Cursor → α} (h : ReadsAt src c S (f (g c))) :
    ReadsAt src c S ((do return g (← get)) >>= f) := h

theorem guardThat {b : Bool} {g : Unit → Parser β} (h : b = true → ReadsAt src c S (g ())) :
    ReadsAt src c S (guardThat b >>= g) := by
  cases b with
  | true => exact h rfl
  | false => nofun

theorem advance {g : Unit → Parser β} (h : ReadsAt src c.advance S (g ())) :
    ReadsAt src c S (advance >>= g) := h

theorem leaf {R : Tree → Cursor → Prop} {k : Kind} (hc : c.In src)
    (h : R (.node .plain k c.start c.stop []) c.advance) : ReadsAt src c R (leaf k) := by
  rintro _ _ ⟨⟩
  rw [List.getLast?_nil, Option.map_none, Option.getD_none, Nat.max_zero, Cursor.advance_previous]
  exact ⟨hc.advance, h⟩

theorem acceptIf {q : Parser Bool} {x : Bool} {g : Bool → Parser β} (hq : q c = some (x, c))
    (hthere : x = true → ReadsAt src c.advance S (g true))
    (hmissing : x = false → ReadsAt src c S (g false)) :
    ReadsAt src c S ((do
      if ← q then
        Parser.advance
        return true
      return false) >>= g) := by
  intro b d hrun
  obtain ⟨y, c', haccept, hrest⟩ := run_bind_eq_some.mp hrun
  obtain ⟨z, c'', hlook, htaken⟩ := run_bind_eq_some.mp haccept
  obtain ⟨rfl, rfl⟩ := by simpa [hq] using hlook
  cases x with
  | true =>
    cases htaken
    exact hthere rfl b d hrest
  | false =>
    cases htaken
    exact hmissing rfl b d hrest

theorem accept {p : String} {g : Bool → Parser β}
    (hthere : c.token = .punct p → ReadsAt src c.advance S (g true))
    (hmissing : c.token ≠ .punct p → ReadsAt src c S (g false)) :
    ReadsAt src c S (accept p >>= g) :=
  acceptIf (q := at? p) (x := c.token == .punct p) rfl (fun h => hthere (beq_iff_eq.mp h))
    fun h => hmissing (beq_eq_false_iff_ne.mp h)

theorem acceptWord {w : String} {g : Bool → Parser β}
    (hthere : c.token = .name w → ReadsAt src c.advance S (g true))
    (hmissing : c.token ≠ .name w → ReadsAt src c S (g false)) :
    ReadsAt src c S (acceptWord w >>= g) :=
  acceptIf (q := atWord w) (x := c.token == .name w) rfl (fun h => hthere (beq_iff_eq.mp h))
    fun h => hmissing (beq_eq_false_iff_ne.mp h)

theorem attempt {p : Parser α} (hp : ReadsAt src c R p) (hc : c.In src) :
    ReadsAt src c (fun o d => o.elim (d = c) fun a => R a d) (attempt p) := by
  intro o d hrun
  rw [Parser.attempt] at hrun
  split at hrun
  · rename_i a e hp'
    obtain ⟨rfl, rfl⟩ := by simpa using hrun
    exact hp a e hp'
  · obtain ⟨rfl, rfl⟩ := by simpa using hrun
    exact ⟨hc, rfl⟩

theorem acceptTypedWord {w : String} {g : Bool → Parser β}
    (hthere : c.token = .name w → ReadsAt src c.advance S (g true))
    (hmissing : ReadsAt src c S (g false)) : ReadsAt src c S (acceptTypedWord w >>= g) := by
  rw [Parser.acceptTypedWord, bind_assoc]
  refine .look ?_
  split
  · exact .acceptWord hthere fun _ => hmissing
  · exact hmissing

theorem expect {p : String} {g : Unit → Parser β}
    (h : c.token = .punct p → ReadsAt src c.advance S (g ())) :
    ReadsAt src c S (expect p >>= g) := by
  rw [Parser.expect, bind_assoc]
  exact .accept (fun htoken => .guardThat fun _ => h htoken) fun _ => .guardThat nofun

/-- What a step keeps of the results so far, folded together, a repetition keeps. -/
theorem repeated {γ : Type} {I : γ → Cursor → Prop} {g : γ → α → γ} {step : Parser (Option α)}
    (hstep : ∀ x c, c.In src → I x c → ReadsAt src c (fun o d => ∀ a ∈ o, I (g x a) d) step)
    {x : γ} (hc : c.In src) (hx : I x c) :
    ReadsAt src c (fun as _ => ∃ d, I (as.foldl g x) d) (repeated step) := by
  -- by induction on the bound, with what is kept of the results in `done`, the last in front
  have haux (n : Nat) (done : List α) (c : Cursor) (hc : c.In src)
      (hx : I (done.reverse.foldl g x) c) :
      ReadsAt src c (fun as _ => ∃ d, I (as.foldl g x) d) (repeatAux step n done) := by
    induction n generalizing done c with
    | zero => nofun
    | succ n ih =>
      refine .bind (hstep _ c hc hx) fun o d hd ho => ?_
      split
      · exact .pure hd ⟨c, hx⟩
      · exact ih _ d hd (by simpa using ho _ rfl)
  exact fun as d hrun => haux (c.size + 2) [] c hc hx as d hrun

end ReadsAt

end SceneSync.Script
