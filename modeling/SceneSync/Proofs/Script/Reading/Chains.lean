import Mathlib
import SceneSync.Proofs.Script.Reading.Declarations
import SceneSync.Script.Grammar.Expression

/-!
# Reading chains of names

What `new` constructs is read as a primary expression and the members behind it. Each
step of the chain keeps the text read so far spelled, up to the token before the cursor.
-/

namespace SceneSync.Script

open Script.Parser Grammar

variable {src : List Char} {rules : Rules} {a b : Nat} {t u : Tree} {c d : Cursor} {w : String}

/-! ## Chains in another role -/

@[simp] theorem names?_withRole (r : Role) : (t.withRole r).names? src = t.names? src := by
  obtain ⟨r', k, a, b, cs⟩ := t
  rw [Tree.withRole, Tree.names?.eq_def, Tree.names?.eq_def]
  split <;> simp_all [Tree.textIn, Tree.start, Tree.stop]

@[simp] theorem isMemberPath_withRole (r : Role) :
    isMemberPath (t.withRole r) = isMemberPath t := by
  rw [isMemberPath_eq [], names?_withRole, ← isMemberPath_eq]

theorem Spelled.withRole (h : Spelled src t) (r : Role) : Spelled src (t.withRole r) := by
  obtain ⟨ns, gs, text, hnames, hspelling, hspans⟩ := h
  refine ⟨ns, gs, text, ?_, hspelling, ?_⟩
  · rw [names?_withRole, hnames]
  · rwa [start_withRole, stop_withRole]

/-! ## The token under the cursor -/

theorem Cursor.In.spans {word : List Char} (hc : c.In src) (h : c.Shows word) :
    Spans src c.start c.stop word := by
  obtain ⟨hne, hhere, hstop⟩ := h
  have hremains := hc.remains hne
  rw [hhere] at hremains
  rw [hstop]
  exact hremains.spans

theorem Cursor.In.spans_gap (hc : c.In src) (hne : c.here ≠ []) :
    ∃ gap, Trivia gap ∧ Spans src c.previous c.start gap := by
  obtain ⟨gap, htrivia, hremains, hstart⟩ := hc.gap hne
  rw [hstart]
  exact ⟨gap, htrivia, hremains.spans⟩

namespace ReadsAt

theorem atFunction (hc : c.In src) : ReadsAt src c (fun _ d => d = c) atFunction := by
  refine .bind (R := fun _ d => d = c) ?_ fun x d hd hdc => ?_
  · exact fun _ _ hrun => by cases hrun; exact ⟨hc, rfl⟩
  · subst hdc
    refine .ite (fun _ => .pure hd rfl) fun _ x e hrun => ?_
    cases hrun
    exact ⟨hd, rfl⟩

end ReadsAt

/-! ## Operands and steps -/

/-- What a step puts behind an expression is sound. -/
structure SoundStep (src : List Char) (s : Step) : Prop where
  sound : AllSound src s.others
  notNew : s.kind ≠ .newExpression

/-- A step that gives no chain of names. -/
structure OtherStep (src : List Char) (s : Step) : Prop extends SoundStep src s where
  notName : s.kind ≠ .identifier
  notMember : s.kind ≠ .memberExpression

theorem SoundStep.apply {s : Step} (hs : SoundStep src s) (ht : Sound src t) :
    Sound src (s.apply b t) :=
  sound_of_children hs.notNew (by simp [ht, hs.sound])

theorem OtherStep.apply {s : Step} (hs : OtherStep src s) (ht : Sound src t) :
    Other src (s.apply b t) :=
  ⟨hs.toSoundStep.apply ht, hs.notName, hs.notMember⟩

theorem sound_foldl_apply {steps : List Step} (hsteps : ∀ s ∈ steps, SoundStep src s)
    (ht : Sound src t) : Sound src (steps.foldl (Step.apply b) t) :=
  List.foldlRecOn _ _ ht fun _ ht s hs => (hsteps s hs).apply ht

namespace Reads

theorem parenthesized (h : SoundRules src rules) :
    Reads src (Other src) (parenthesized rules) := by
  refine .after .start fun a => .after (.expect _) fun _ => .bind (h.sound _) fun e he => ?_
  exact .after (.expect _) fun _ => .close_other nofun nofun nofun (by simp [he])

theorem arguments (h : SoundRules src rules) : Reads src (Sound src) (arguments rules) := by
  refine .after .start fun a => .after (.expect _) fun _ => ?_
  refine .bind (.listUntil (.argument h)) fun es hes => ?_
  exact .bind (.close nofun hes) fun t ht => .pure (by simpa using ht)

theorem calledTypeArguments (h : SoundRules src rules) :
    Reads src (fun o => ∀ t ∈ o, Sound src t) (calledTypeArguments rules) := by
  refine .after .isTyped fun _ => .after (.at? _) fun _ => .ite (.attempt ?_) (.pure (by simp))
  refine .bind (.typeArguments h) fun ts hts => .bind .here fun c _ => ?_
  exact .after (.guardThat _) fun _ => .pure (by simpa using hts)

theorem step {P : Step → Prop} {k : Kind} {r : Role} {others : List Tree}
    (hp : ∀ n, P ⟨k, r, others, n⟩) :
    Reads src (fun o => ∀ s ∈ o, P s) (step k r others) :=
  .bind .here fun _ _ => .pure (by simpa using hp _)

theorem memberStep : Reads src (fun o => ∀ s ∈ o, SoundStep src s) memberStep := by
  have hgo (n : Tree) (hn : Sound src n) : Reads src (fun o => ∀ s ∈ o, SoundStep src s)
      (Grammar.step .memberExpression .object [n.withRole .property]) :=
    .step fun _ => ⟨by simpa using hn, nofun⟩
  refine .after .token fun t => ?_
  split
  · exact .bind (.leaf nofun) hgo
  · exact .bind (.anyName nofun) hgo

theorem subscriptStep (h : SoundRules src rules) :
    Reads src (fun o => ∀ s ∈ o, OtherStep src s) (subscriptStep rules) := by
  refine .after (.expect _) fun _ => .bind (h.sound _) fun i hi => .after (.expect _) fun _ => ?_
  exact .step fun _ => ⟨⟨by simpa using hi, nofun⟩, nofun, nofun⟩

theorem callStep (h : SoundRules src rules) {ts : List Tree} (hts : AllSound src ts) :
    Reads src (fun o => ∀ s ∈ o, OtherStep src s) (callStep rules ts) := by
  have hgo (es : Tree) (hes : Sound src es) : Reads src (fun o => ∀ s ∈ o, OtherStep src s)
      (Grammar.step .callExpression .callee (ts ++ [es])) :=
    .step fun _ => ⟨⟨by simp [hts, hes], nofun⟩, nofun, nofun⟩
  refine .after (.at? _) fun _ => .ite (.bind (.templateParts h _) fun t ht => hgo t ht.sound) ?_
  exact .bind (.arguments h) hgo

theorem importExpression (h : SoundRules src rules) :
    Reads src (Other src) (importExpression rules) := by
  refine .after .start fun a => .after (.expectWord _) fun _ => ?_
  refine .after (.accept _) fun _ => .ite ?_ ?_
  · exact .bind (.anyName nofun) fun _ _ => .close_other nofun nofun nofun allSound_nil
  · exact .bind (.arguments h) fun es hes => .close_other nofun nofun nofun (by simp [hes])

end Reads

/-! ## Joining names -/

/-- What has been read from byte `b` up to a cursor: a chain of names ends at the token
before the cursor, and is spelled. -/
structure Joined (src : List Char) (b : Nat) (t : Tree) (c : Cursor) : Prop where
  sound : Sound src t
  path : isMemberPath t = true → t.start = b ∧ t.stop = c.previous ∧ Spelled src t

theorem Other.joined (h : Other src t) : Joined src b t c :=
  ⟨h.sound, fun hpath => by simp [h.not_path] at hpath⟩

namespace ReadsAt

theorem identifier (hc : c.In src) : ReadsAt src c (Joined src c.start) identifier := by
  refine .look (.guardThat fun hname => .leaf hc ?_)
  refine ⟨sound_of_children nofun allSound_nil, fun _ => ?_⟩
  refine ⟨rfl, (Cursor.advance_previous c).symm, ?_⟩
  cases htoken : c.token with
  | name w =>
    have hspans := hc.spans (hc.name _ htoken)
    have htext := Spans.textIn (t := .node .plain .identifier c.start c.stop []) hspans
    refine ⟨[w.toList], [], w.toList, ?_, .name _, hspans⟩
    rw [Tree.names?, htext]
  | _ => simp [htoken, isNameToken] at hname

theorem primary (h : SoundRules src rules) (hc : c.In src) :
    ReadsAt src c (Joined src c.start) (primary rules) := by
  have other {p : Parser Tree} (hp : Reads src (Other src) p) :
      ReadsAt src c (Joined src c.start) p := hp.at hc fun _ _ ht => ht.joined
  refine .look ?_
  split
  · exact other (.leaf_other nofun nofun nofun)
  · exact other (.leaf_other nofun nofun nofun)
  · exact other (.templateParts h _)
  · exact other (.parenthesized h)
  · exact other (.arrayLiteral h)
  · exact other (.objectLiteral h)
  · exact other .regexLiteral
  · exact other .regexLiteral
  · exact other (.classExpression h)
  · refine other (.after .isTyped fun _ => .after (.guardThat _) fun _ => ?_)
    exact .bind h.markup fun e he => .after (.expect _) fun _ => .pure he
  · refine .ite (fun _ => other (.leaf_other nofun nofun nofun)) fun _ => ?_
    refine .ite (fun _ => other (.leaf_other nofun nofun nofun)) fun _ => ?_
    refine .ite (fun _ => other (.leaf_other nofun nofun nofun)) fun _ => ?_
    refine .ite (fun _ => other (.classExpression h)) fun _ => ?_
    refine .ite (fun _ => other (.importExpression h)) fun _ => ?_
    refine .bind (.atFunction hc) fun x d _ hdc => ?_
    subst hdc
    exact .ite (fun _ => other (.functionExpression h)) fun _ => .identifier hc
  · exact other .failure

end ReadsAt

/-! ## Steps that join a name -/

/-- A point and a name behind a chain of names lengthen it. -/
theorem Spelled.member {r : Role} (ht : Spelled src t) (hc : c.In src) (hstop : t.stop = c.previous)
    (hpoint : c.token = .punct ".") (hname : c.advance.token = .name w) :
    Spelled src (.node .plain .memberExpression t.start c.advance.stop
      [t, .node r .propertyIdentifier c.advance.start c.advance.stop []]) := by
  obtain ⟨ns, gs, text, hnames, hspelling, hspans⟩ := ht
  obtain ⟨g, hg, hgap⟩ := hc.spans_gap (hc.punct _ hpoint).1
  obtain ⟨g', hg', hgap'⟩ := hc.advance.spans_gap (hc.advance.name _ hname).1
  have hword := hc.advance.spans (hc.advance.name _ hname)
  rw [Cursor.advance_previous] at hgap'
  rw [hstop] at hspans
  refine ⟨ns ++ [w.toList], gs ++ [g, g'], text ++ (g ++ '.' :: (g' ++ w.toList)), ?_,
    .member _ hspelling hg hg', ?_⟩
  · have htext := Spans.textIn (t := .node r .propertyIdentifier _ _ []) hword
    rw [Tree.names?, hnames, htext]
    rfl
  · exact hspans.append (hgap.append ((hc.spans (hc.punct _ hpoint)).append (hgap'.append hword)))

namespace ReadsAt

theorem anyName {k : Kind} (hc : c.In src) :
    ReadsAt src c (fun n d => (n = .node .plain k c.start c.stop [] ∧ d = c.advance) ∧
      ∃ w, c.token = .name w) (anyName k) := by
  refine .look ?_
  split
  · exact .leaf hc ⟨⟨rfl, rfl⟩, _, ‹_›⟩
  · nofun

theorem memberStep (hc : c.In src) (hpoint : c.token = .punct ".") (ht : Joined src b t c) :
    ReadsAt src c.advance (fun o d => ∀ s ∈ o, Joined src b (s.apply b t) d) memberStep := by
  have hgo (k : Kind) (hk : k ≠ .newExpression)
      (hname : k = .propertyIdentifier → ∃ w, c.advance.token = .name w) (n : Tree) (d : Cursor)
      (hd : d.In src)
      (hn : n = .node .plain k c.advance.start c.advance.stop [] ∧ d = c.advance.advance) :
      ReadsAt src d (fun o d => ∀ s ∈ o, Joined src b (s.apply b t) d)
        (Grammar.step .memberExpression .object [n.withRole .property]) := by
    obtain ⟨rfl, rfl⟩ := hn
    rintro o e ⟨⟩
    refine ⟨hd, fun s hs => ?_⟩
    obtain rfl := Option.some.inj hs
    refine ⟨sound_of_children (by simp) (by simp [ht.sound, sound_of_children hk allSound_nil]), ?_⟩
    rw [Step.apply, isMemberPath, isMemberPath_withRole, Bool.and_eq_true, beq_iff_eq]
    rintro ⟨rfl, hpath⟩
    obtain ⟨w, hw⟩ := hname rfl
    obtain ⟨rfl, hstop, hspelled⟩ := ht.path hpath
    have hmember := (hspelled.withRole .object).member (r := .property) hc (by simpa) hpoint hw
    rw [start_withRole] at hmember
    rw [Cursor.advance_previous]
    exact ⟨rfl, rfl, hmember⟩
  refine .look ?_
  split
  · exact .bind (.leaf hc.advance ⟨rfl, rfl⟩) (hgo _ (by simp) (by simp))
  · exact .bind (.anyName hc.advance) fun n d hd hn =>
      hgo .propertyIdentifier (by simp) (fun _ => hn.2) n d hd hn.1

theorem chainStep (h : SoundRules src rules) (hc : c.In src) (ht : Joined src b t c) :
    ReadsAt src c (fun o d => ∀ s ∈ o, Joined src b (s.apply b t) d) (chainStep rules false) := by
  have other {p : Parser (Option Step)} (hp : Reads src (fun o => ∀ s ∈ o, OtherStep src s) p) :
      ReadsAt src c (fun o d => ∀ s ∈ o, Joined src b (s.apply b t) d) p :=
    hp.at hc fun o d ho s hs => ((ho s hs).apply ht.sound).joined
  -- neither calls nor their marks are read here, so every other step ends the chain of names
  refine .accept (fun hpoint => .memberStep hc hpoint ht) fun _ => other ?_
  simp only [Bool.false_and, Bool.false_eq_true, if_false]
  refine .after (.at? _) fun _ => .ite (.subscriptStep h) ?_
  refine .after (.at? _) fun _ => .ite (.callStep h allSound_nil) ?_
  refine .after (.at? _) fun _ => .after (.at? _) fun _ => .after .isTyped fun _ => ?_
  refine .after (.at? _) fun _ => .after .onNewLine fun _ => .ite ?_ (.pure (by simp))
  exact .after .advance fun _ => .step fun _ => ⟨⟨allSound_nil, nofun⟩, nofun, nofun⟩

theorem chainFrom (h : SoundRules src rules) (hc : c.In src) (ht : Joined src b t c) :
    ReadsAt src c (fun u _ => ∃ e, Joined src b u e) (chainFrom rules b t false) := by
  refine .bind (.repeated (I := fun u d => Joined src b u d) (fun u d hd hu => .chainStep h hd hu)
    hc ht) fun steps d hd hsteps => .pure hd hsteps

end ReadsAt

/-! ## Constructions -/

theorem Joined.sound_new {others : List Tree} {n : Nat} (h : Joined src b t c)
    (hothers : AllSound src others) :
    Sound src (.node .plain .newExpression a n (t.withRole .callee :: others)) := by
  refine sound_node.mpr ⟨fun _ => ?_, by simp [h.sound, hothers]⟩
  refine ⟨t.withRole .callee, ?_, fun hpath => ?_⟩
  · obtain ⟨r, k, x, y, ts⟩ := t
    rfl
  · rw [isMemberPath_withRole] at hpath
    exact (h.path hpath).2.2.withRole _

namespace Reads

/-- What `new` constructs, and what comes behind it. -/
theorem constructed {β : Type} {Q : β → Prop} {f : Tree → Parser β} (h : SoundRules src rules)
    (hf : ∀ t b c, Joined src b t c → Reads src Q (f t)) :
    Reads src Q (do
      let b ← Parser.start
      let head ← if ← Parser.atWord "new" then rules .construction else Grammar.primary rules
      let t ← Grammar.chainFrom rules b head false
      f t) := by
  have hgo (head : Tree) (b : Nat) (c d : Cursor) (hd : d.In src) (hhead : Joined src b head d) :
      ReadsAt src d (fun x _ => Q x) (Grammar.chainFrom rules b head false >>= f) :=
    .bind (.chainFrom h hd hhead) fun t e he ⟨e', ht⟩ => (hf t b e' ht).at he fun _ _ hx => hx
  refine .of_at fun c hc => .look (.look (g := fun c => c.token == .name "new") (.ite ?_ ?_))
  · intro
    exact .bind (h.construction.at hc fun _ _ ht => ht.joined) fun head d => hgo head _ d d
  · intro
    exact .bind (.primary h hc) fun head d => hgo head _ d d

theorem construction (h : SoundRules src rules) :
    Reads src (Other src) (construction rules) := by
  refine .after .start fun a => .after (.expectWord _) fun _ => ?_
  refine .after (.accept _) fun _ => .ite ?_ ?_
  · exact .bind (.anyName nofun) fun _ _ => .close_other nofun nofun nofun allSound_nil
  refine .constructed h fun t b c ht => .bind (.calledTypeArguments h) fun ts hts => ?_
  have hts' : AllSound src ts.toList := fun t ht => hts t (Option.mem_toList.mp ht)
  refine .after (.at? _) fun _ => .maybe (.arguments h) fun es hes => .after (.looks _) fun _ => ?_
  exact .pure ⟨ht.sound_new (by simp [hts', hes]), nofun, nofun⟩

theorem primary (h : SoundRules src rules) : Reads src (Sound src) (primary rules) :=
  .of_at fun _ hc => (ReadsAt.primary h hc).mono fun _ _ ht => ht.sound

theorem chainStep (h : SoundRules src rules) :
    Reads src (fun o => ∀ s ∈ o, SoundStep src s) (chainStep rules true) := by
  have hsubscript := (Reads.subscriptStep h).mono fun o ho s hs => (ho s hs).toSoundStep
  have hcall (ts : List Tree) (hts : AllSound src ts) :=
    (Reads.callStep h hts).mono fun o ho s hs => (ho s hs).toSoundStep
  refine .after (.accept _) fun _ => .ite .memberStep ?_
  refine .after (.at? _) fun _ => .ite hsubscript ?_
  refine .after (.at? _) fun _ => .ite (hcall [] allSound_nil) ?_
  refine .after (.at? _) fun _ => .ite (hcall [] allSound_nil) ?_
  refine .after (.at? _) fun _ => .ite ?_ ?_
  · refine .after .advance fun _ => .after (.at? _) fun _ => .ite hsubscript ?_
    refine .after .isTyped fun _ => .after (.at? _) fun _ => ?_
    refine .maybe (.typeArguments h) fun ts hts => ?_
    exact .after (.at? _) fun _ => .after (.at? _) fun _ => .ite (hcall ts hts) .memberStep
  · refine .after .isTyped fun _ => .after (.at? _) fun _ => .after .onNewLine fun _ => .ite ?_ ?_
    · exact .after .advance fun _ => .step fun _ => ⟨allSound_nil, nofun⟩
    · refine .ite (.bind (.calledTypeArguments h) fun o ho => ?_) (.pure (by simp))
      split
      · exact .pure (by simp)
      · rename_i ts
        have hts : AllSound src [ts] := by simpa using ho
        refine .after (.at? _) fun _ => .after (.at? _) fun _ => .ite (hcall [ts] hts) ?_
        exact .step fun _ => ⟨hts, nofun⟩

theorem chainFrom (h : SoundRules src rules) (ht : Sound src t) :
    Reads src (Sound src) (chainFrom rules a t true) :=
  .bind (.repeated (.chainStep h)) fun _ hsteps => .pure (sound_foldl_apply hsteps ht)

theorem chain (h : SoundRules src rules) : Reads src (Sound src) (chain rules) := by
  refine .after .start fun a => .after (.atWord _) fun _ => .ite ?_ ?_
  · exact .bind (h.sound _) fun t ht => .chainFrom h ht
  · exact .bind (.primary h) fun t ht => .chainFrom h ht

end Reads

end SceneSync.Script
