import Mathlib
import SceneSync.Proofs.Script.Forming.Chains
import SceneSync.Proofs.Script.Reading.Expressions

/-!
# Forming markup

Names and texts of markup are read from the characters, and some of these parsers may take
none. So they are only known not to go back, and the tag around them is laid out from its
first mark to its last.
-/

namespace SceneSync.Script

open Script.Parser Script.Tree Grammar

variable {src : List Char} {dialect : Dialect} {rules : Rules} {t : Tree} {ts us : List Tree}
  {a : Nat} {k : Kind} {c d : Cursor} {α β : Type}

/-! ## Parsers that do not go back -/

/-- A parser behind which the token before the cursor ends no earlier. -/
def Forward (src : List Char) (dialect : Dialect) (p : Parser α) : Prop :=
  ∀ c, c.Placed src dialect →
    ReadsAt src c (fun _ d => d.Placed src dialect ∧ c.previous ≤ d.previous) p

/-- As `Forward`, from a token at which no blank stands on. -/
def Names (src : List Char) (dialect : Dialect) (p : Parser α) : Prop :=
  ∀ c, c.Placed src dialect →
    ReadsAt src c (fun _ d => d.Placed src dialect ∧ Solid src c.start ∧ c.start ≤ d.previous) p

namespace Forward

theorem bind {p : Parser α} {f : α → Parser β} (hp : Forward src dialect p)
    (hf : ∀ x, Forward src dialect (f x)) : Forward src dialect (p >>= f) :=
  fun c hc => .bind (hp c hc) fun x d _ ⟨hd, hle⟩ =>
    (hf x d hd).mono fun _ _ ⟨he, hle'⟩ => ⟨he, hle.trans hle'⟩

theorem ite {p q : Parser α} {b : Prop} [Decidable b] (hp : Forward src dialect p)
    (hq : Forward src dialect q) : Forward src dialect (if b then p else q) := by
  split
  · exact hp
  · exact hq

theorem of_moves {p : Parser α} (hp : Moves src dialect p) : Forward src dialect p := by
  refine fun c hc => (hp c hc).mono fun _ d ⟨hd, hpast⟩ => ⟨hd, ?_⟩
  rcases hpast with rfl | hpast
  · exact Nat.le_refl _
  · exact hc.previous_le_start.trans hpast.lt.le

theorem of_names {p : Parser α} (hp : Names src dialect p) : Forward src dialect p :=
  fun c hc => (hp c hc).mono fun _ _ h => ⟨h.1, hc.previous_le_start.trans h.2.2⟩

theorem pure (x : α) : Forward src dialect (pure x : Parser α) := of_moves (.pure x)

theorem repeated {step : Parser (Option α)} (hstep : Forward src dialect step) :
    Forward src dialect (Parser.repeated step) := fun c hc =>
  ReadsAt.keeps (I := fun d => d.Placed src dialect ∧ c.previous ≤ d.previous)
    (fun d ⟨hd, hle⟩ => (hstep d hd).mono fun _ _ ⟨he, hle'⟩ => ⟨he, hle.trans hle'⟩)
    c ⟨hc, Nat.le_refl _⟩

end Forward

theorem Names.bind {p : Parser α} {f : α → Parser β} (hp : Names src dialect p)
    (hf : ∀ x, Forward src dialect (f x)) : Names src dialect (p >>= f) :=
  fun c hc => .bind (hp c hc) fun x d _ ⟨hd, hsolid, hle⟩ =>
    (hf x d hd).mono fun _ _ ⟨he, hle'⟩ => ⟨he, hsolid, hle.trans hle'⟩

theorem Leads.forward {p : Parser α} {f : α → Parser β} {S : β → Cursor → Prop}
    (hp : Forward src dialect p) (hf : ∀ x, Leads src (Laid src dialect a .firm ts) S (f x)) :
    Leads src (Laid src dialect a .firm ts) S (p >>= f) :=
  fun c hc => .bind (hp c hc.placed) fun x d _ ⟨hd, hle⟩ => hf x d (hc.shift hd hle)

/-! ## Names and texts -/

theorem Names.tagWord : Names src dialect tagWord := by
  intro c hc
  refine .look (g := id) ?_
  split
  · rename_i w hname
    change c.token = .name w at hname
    have hplaced := hc.jump_here (eats_word c.start (List.takeWhile_prefix isTagChar))
    have hbegun := hc.begun (by rw [hname]; rfl)
    exact .set (.pure hplaced.within ⟨hplaced, hbegun.solid, by simp⟩)
  · nofun

theorem Names.tagName : Names src dialect tagName := by
  refine .bind .tagWord fun _ => .bind (.of_moves (.accept _)) fun _ => ?_
  refine .ite (.of_names .tagWord) (.bind (.repeated ?_) fun _ => .pure _)
  refine .bind (.of_moves (.accept _)) fun _ => .ite ?_ (.pure _)
  exact .bind (.of_names .tagWord) fun _ => .pure _

theorem Forward.attributeText : Forward src dialect attributeText := by
  intro c hc
  refine .look (g := id) ?_
  split
  · rename_i q cs hhere
    change c.here = q :: cs at hhere
    refine .guardThat fun hquote => ?_
    have hq : q.utf8Size = 1 := by
      simp only [Bool.or_eq_true, beq_iff_eq] at hquote
      rcases hquote with rfl | rfl <;> rfl
    extract_lets text
    split
    · rename_i hdrop
      have heats := eats_quoted c.start hq hdrop
      rw [← hhere] at heats
      have hplaced := hc.jump_here heats
      refine .set (.pure hplaced.within ⟨hplaced, ?_⟩)
      simpa using hc.previous_le_start.trans heats.le
    · nofun
  · nofun

/-! ## Tags -/

/-- What stands in braces, up to the closing one. -/
theorem Leads.container {β : Type} {f : List Tree → Parser β} {S : β → Cursor → Prop} {r : Reach}
    (h : FormingRules src dialect rules)
    (hf : ∀ us, Leads src (fun c => Laid src dialect a .firm (ts ++ us) c ∧ c.token = .punct "\x7d")
      S (f us)) :
    Leads src (Laid src dialect a r ts) S (container rules >>= f) := by
  have hread : Leads src (Laid src dialect a r ts)
      (fun us c => Laid src dialect a .firm (ts ++ us) c ∧ c.token = .punct "\x7d")
      (Grammar.container rules) := by
    refine .take (.expect _) fun _ => .at? fun _ => .ifSeen ?_ ?_
    · exact fun c hc => .pure hc.1.placed.within ⟨by simpa using hc.1, hc.2⟩
    · refine .move (.accept _) fun _ => .child (h (.expression false)) fun e _ => ?_
      exact .at? fun _ => .guardThat fun hclose c hc =>
        .pure hc.1.placed.within ⟨hc.1, hc.2 hclose⟩
  exact .bind hread hf

theorem Leads.elementChild {β : Type} {f : Tree → Parser β} {S : β → Cursor → Prop} {r : Reach}
    (h : FormingRules src dialect rules)
    (hf : ∀ e, Leads src (Laid src dialect a .firm (ts ++ [e])) S (f e)) :
    Leads src (Laid src dialect a r ts) S (do
      let e ← rules .markup
      Parser.expect ">"
      f e) :=
  fun c hc => .bind (h .markup c.start c hc.placed.starts) fun e _ _ ⟨_, _, he⟩ =>
    .expect fun _ => hf e _ (hc.add he)

theorem Lays.tagAttribute (h : FormingRules src dialect rules) :
    Lays src dialect .firm .firm (fun _ => True) (tagAttribute rules) := by
  intro a ts c hc
  have hstart := hc.placed.start
  refine .look ((Leads.look (.at? _) fun _ => .ite ?_ ?_) c hc.placed.starts)
  · have hbraces : Leads src (Starts src dialect c.start) (Whole src dialect c.start .firm Usual) (do
        let e ← Grammar.container rules
        Parser.expect "\x7d"
        Parser.close .markupContainer c.start e) :=
      .laid (.container h fun e => .forget (.take (.expect _) fun _ => .close rfl (by simp)))
    exact hbraces.mono fun t d ht => ⟨hc.add ht, trivial⟩
  rintro b ⟨hb, hbstart⟩
  refine .bind (Names.tagName b hb) fun _ d _ ⟨hd, hsolid, hle⟩ => ?_
  rw [hbstart] at hsolid hle
  extract_lets go
  have hgo (v : List Tree) : Leads src (Laid src dialect c.start .firm v)
      (Whole src dialect c.start .firm Usual) (go v) := .close rfl (by simp)
  refine .accept (fun hvalue => ?_) fun _ => ?_
  · have hlt : c.start < d.advance.previous :=
      (hle.trans hd.previous_le_start).trans_lt (hd.past (by rw [hvalue]; rfl)).lt
    have hlaid : Laid src dialect c.start .firm [] d.advance :=
      ⟨hd.advance, hstart, hlt.le, by simp, .inr ⟨hsolid, hlt.trans_le (le_max_left _ _)⟩⟩
    refine ReadsAt.mono (R := Whole src dialect c.start .firm Usual) ?_
      fun t e ht => ⟨hc.add ht, trivial⟩
    refine Leads.look .here (fun _ => .ite (.forward .attributeText fun _ => hgo []) ?_) _ hlaid
    refine .look (.at? _) fun _ => .ite ?_ ?_
    · exact .container h fun e => .forget (.take (.expect _) fun _ => hgo e)
    · exact .elementChild h fun e => hgo [e]
  · -- without a value the name may have taken no characters
    rintro _ _ ⟨⟩
    have hprevious : c.previous ≤ d.previous := hc.placed.previous_le_start.trans hle
    refine ⟨hd.within, hc.append hd rfl (formed_node.mpr ⟨?_, ?_, by simp⟩) hprevious ?_, trivial⟩
    · exact hle.trans (le_max_left _ _)
    · exact ⟨hstart, by simpa [Tree.stop] using hd.previous, trivial⟩
    · simp [Tree.stop]

/-! ## Elements -/

/-- Parts that end with the mark under the cursor. -/
def Marked (src : List Char) (dialect : Dialect) (a : Nat) (ts : List Tree) (c : Cursor) : Prop :=
  c.Placed src dialect ∧ Laid src dialect a .firm ts c.advance

/-- A node is put around what was read, up to the mark under the cursor. -/
theorem Laid.whole_upto (h : Laid src dialect a .firm ts c) (hreal : c.token.isReal = true)
    (hk : isFree k = true) :
    Whole src dialect a .firm Usual (.node .plain k a c.stop ts) c.advance := by
  have htaken := h.take h.placed.advance (h.placed.past hreal)
  simpa using htaken.whole_around hk rfl

theorem Leads.markupText {f : Unit → Parser β} {S : β → Cursor → Prop}
    (hf : Leads src (Laid src dialect a .firm ts) S (f ())) :
    Leads src (Marked src dialect a ts) S (markupText >>= f) := by
  rintro c ⟨hc, hlaid⟩
  have hjump (p : Char → Bool) := hc.jump (eats_word c.stop (List.takeWhile_prefix p))
  rw [Grammar.markupText]
  simp only [bind_assoc]
  refine .look (g := id) (.set (Leads.look (.at? _) (fun _ => .look (.at? _) fun _ => ?_) _
    (hlaid.shift (hjump _) (by simp))))
  exact .look (.guardThat _) fun _ => hf

theorem Leads.markupItem (h : FormingRules src dialect rules) (ts : List Tree) :
    Leads src (Marked src dialect a ts)
      (fun o => o.elim (Laid src dialect a .firm ts) fun t => Marked src dialect a (ts ++ [t])) (do
        Grammar.markupText
        if ← Parser.at? "\x7b" then
          let a ← Parser.start
          let e ← Grammar.container rules
          return some (Tree.node .plain .markupContainer a (← Parser.here).stop e)
        if (← Parser.ahead).1 == .punct "/" then return none
        return some (← rules .markup)) := by
  refine .markupText (.look (.at? _) fun _ => .ite (fun c hc => ?_) (.look .ahead fun _ => .ite ?_ ?_))
  · refine .look ((Leads.laid (.container h fun e d hd => .look (.pure hd.1.placed.within ?_))) c
      hc.placed.starts)
    exact ⟨hd.1.placed, hc.add (hd.1.whole_upto (by rw [hd.2]; rfl) rfl)⟩
  · exact fun c hc => .pure hc.placed.within hc
  · exact fun c hc => .bind (h .markup c.start c hc.placed.starts) fun t d hd ⟨hplaced, _, ht⟩ =>
      .pure hd ⟨hplaced, hc.add ht⟩

theorem Leads.markupChildren (h : FormingRules src dialect rules) :
    Leads src (Marked src dialect a ts)
      (fun us c => Laid src dialect a .firm (ts ++ us) c ∧ c.token = .punct ">")
      (markupChildren rules) := by
  refine .bind (ReadsAt.repeats (g := fun ts t => ts ++ [t]) (fun ts => markupItem h ts) ts) ?_
  intro us
  rw [foldl_snoc]
  have hend : Leads src (Laid src dialect a .firm (ts ++ us))
      (fun us c => Laid src dialect a .firm (ts ++ us) c ∧ c.token = .punct ">") (do
        Parser.guardThat (← Parser.at? ">")
        return us) :=
    .at? fun _ => .guardThat fun hclose c hc => .pure hc.1.placed.within ⟨hc.1, hc.2 hclose⟩
  refine .take (.expect _) fun _ => .take (.expect _) fun _ => .look (.at? _) fun _ => ?_
  exact .ite (.forward (.of_names .tagName) fun _ => hend) hend

theorem Tags.markupElement (h : FormingRules src dialect rules) :
    Tags src dialect (markupElement rules) := by
  rintro _ c ⟨hc, rfl⟩
  refine .look ((Leads.take (.expect _) fun _ => .at? fun b => ?_) c hc.starts.laid)
  extract_lets go
  have hgo (attributes : List Tree) : Leads src (Laid src dialect c.start .firm attributes)
      (fun t d => d.Placed src dialect ∧ d.token = .punct ">" ∧
        Whole src dialect c.start .firm Usual t d.advance) (go attributes) := by
    refine .move (.accept _) fun _ => ?_
    extract_lets finish
    have hfinish (children : List Tree) : Leads src
        (fun d => Laid src dialect c.start .firm (attributes ++ children) d ∧ d.token = .punct ">")
        (fun t d => d.Placed src dialect ∧ d.token = .punct ">" ∧
          Whole src dialect c.start .firm Usual t d.advance) (finish children) :=
      fun d ⟨hd, hclose⟩ => .look (.pure hd.placed.within
        ⟨hd.placed, hclose, hd.whole_upto (by rw [hclose]; rfl) rfl⟩)
    refine .ite ?_ ?_
    · refine .at? fun _ => .guardThat fun hclose d hd => hfinish [] d ⟨?_, hd.2 hclose⟩
      simpa using hd.1
    · refine .at? fun _ => .guardThat fun hclose d hd => ?_
      have hreal : d.token.isReal = true := by rw [hd.2 hclose]; rfl
      exact .bind (Leads.markupChildren h d
        ⟨hd.1.placed, hd.1.take hd.1.placed.advance (hd.1.placed.past hreal)⟩)
        fun us e _ he => hfinish us e he
  refine .forget (.ite (hgo []) (.forward (.of_names .tagName) fun _ => ?_))
  have hattributes : Steps src dialect .firm (fun _ => True) (fun t => [t]) (do
      if (← Parser.at? ">") || (← Parser.at? "/") then return none
      return some (← Grammar.tagAttribute rules)) :=
    fun _ _ => .look (.at? _) fun _ => .look (.at? _) fun _ => .ite Steps.ends
      (.childLaid (.tagAttribute h) fun _ _ => Steps.one trivial)
  exact .children (.repeated hattributes) fun us _ => hgo us

end SceneSync.Script
