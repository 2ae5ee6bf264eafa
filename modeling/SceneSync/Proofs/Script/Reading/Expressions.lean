import Mathlib
import SceneSync.Proofs.Script.Reading.Chains

/-!
# Reading expressions

Operators and markup are read from the characters of the cursor, and what is taken of
them is taken in front. The other rules for expressions put sound trees together.
-/

namespace SceneSync.Script

open Script.Parser Grammar

variable {src : List Char} {rules : Rules} {a : Nat} {t : Tree} {c : Cursor}

/-! ## Characters behind a token -/

theorem eats_drop_of_width {cs : List Char} {n k : Nat} (h : width (cs.take k) = k) :
    Eats cs n (cs.drop k) (n + k) := by
  have heats := eats_drop cs n k
  rwa [h] at heats

theorem eats_word {cs word : List Char} (n : Nat) (h : word <+: cs) :
    Eats cs n (cs.drop word.length) (n + width word) := by
  obtain ⟨rest, rfl⟩ := h
  rw [List.drop_left]
  exact eats_append word rest n

/-- A quoted text ends behind the first quote that comes again. -/
theorem eats_quoted {q e : Char} {cs rest : List Char} (n : Nat) (hq : q.utf8Size = 1)
    (h : cs.drop (cs.takeWhile (· != q)).length = e :: rest) :
    Eats (q :: cs) n rest (n + width (cs.takeWhile (· != q)) + 2) := by
  have hsplit := List.prefix_append_drop (List.takeWhile_prefix (l := cs) (· != q))
  rw [h] at hsplit
  have htail : cs.takeWhile (· != q) ++ cs.dropWhile (· != q) =
      cs.takeWhile (· != q) ++ e :: rest := by
    rw [List.takeWhile_append_dropWhile, ← hsplit]
  have hquote := List.head?_dropWhile_not (· != q) cs
  rw [List.append_cancel_left htail] at hquote
  obtain rfl : e = q := by simpa using hquote
  refine ⟨e :: (cs.takeWhile (· != e) ++ [e]), ?_, ?_⟩
  · rw [List.cons_append, List.append_assoc, List.singleton_append, ← hsplit]
  · simp only [width_cons, width_append, width_nil, hq]
    omega

theorem width_greater {cs : List Char} {o : Operator} (h : greater? cs = some o) :
    width (cs.take o.extra) = o.extra := by
  unfold greater? at h
  split at h <;> cases h <;> rfl

theorem width_greaterAssignment {cs : List Char} {k : Nat} (h : greaterAssignment? cs = some k) :
    width (cs.take k) = k := by
  unfold greaterAssignment? at h
  split at h <;> cases h <;> rfl

theorem width_operator {noIn : Bool} {o : Operator} (h : operator? c noIn = some o) :
    width (c.rest.take o.extra) = o.extra := by
  unfold operator? at h
  split at h
  · exact width_greater h
  · obtain ⟨level, -, rfl⟩ := Option.map_eq_some_iff.mp h
    rfl
  · obtain ⟨level, -, rfl⟩ := Option.map_eq_some_iff.mp h
    rfl
  · cases h

theorem width_augmented {k : Nat} (h : augmented? c = some k) : width (c.rest.take k) = k := by
  unfold augmented? at h
  split at h
  · exact width_greaterAssignment h
  · split at h
    · cases h
      rfl
    · cases h
  · cases h

theorem ReadsAt.advanceOver {β : Type} {S : β → Cursor → Prop} {f : Unit → Parser β} {k : Nat}
    (hc : c.In src) (hk : width (c.rest.take k) = k)
    (hf : ∀ d, d.In src → ReadsAt src d S (f ())) :
    ReadsAt src c S (advanceOver k >>= f) :=
  hf _ (hc.jump (eats_drop_of_width hk))

namespace Reads

/-! ## Markup -/

theorem tagWord : Reads src (fun _ => True) tagWord := by
  refine .bind .here fun c hc => ?_
  split
  · exact .set (hc.jump_here (eats_word _ (List.takeWhile_prefix _)))
  · exact .failure

theorem tagName : Reads src (fun _ => True) tagName := by
  refine .after .tagWord fun _ => .after (.accept _) fun _ => .ite .tagWord ?_
  refine .after (.skips ?_) fun _ => .pure trivial
  exact .after (.accept _) fun _ => .ite (.after .tagWord fun _ => .pure trivial) (.pure trivial)

theorem attributeText : Reads src (fun _ => True) attributeText := by
  refine .bind .here fun c hc => ?_
  split
  · rename_i q cs hhere
    refine .guarded fun hquote => ?_
    have hq : q.utf8Size = 1 := by
      simp only [Bool.or_eq_true, beq_iff_eq] at hquote
      rcases hquote with rfl | rfl <;> rfl
    extract_lets text
    split
    · rename_i hdrop
      have heats := eats_quoted c.start hq hdrop
      rw [← hhere] at heats
      exact .set (hc.jump_here heats)
    · exact .failure
  · exact .failure

theorem container (h : SoundRules src rules) : Reads src (AllSound src) (container rules) := by
  refine .after (.expect _) fun _ => .after (.at? _) fun _ => .ite (.pure allSound_nil) ?_
  refine .after (.accept _) fun _ => .bind (h.sound _) fun e he => .after (.at? _) fun _ => ?_
  exact .after (.guardThat _) fun _ => .pure (by simp [he])

theorem tagAttribute (h : SoundRules src rules) : Reads src (Sound src) (tagAttribute rules) := by
  refine .after .start fun a => .after (.at? _) fun _ => .ite ?_ ?_
  · exact .bind (.container h) fun e he => .after (.expect _) fun _ => .close nofun he
  refine .after .tagName fun _ => .after (.accept _) fun _ => ?_
  extract_lets go
  have hgo (v : List Tree) (hv : AllSound src v) : Reads src (Sound src) (go v) := .close nofun hv
  refine .ite (.bind .here fun c _ => .ite (.after .attributeText fun _ => hgo [] allSound_nil) ?_)
    (hgo [] allSound_nil)
  refine .after (.at? _) fun _ => .ite ?_ ?_
  · exact .bind (.container h) fun e he => .after (.expect _) fun _ => hgo e he
  · exact .bind h.markup fun e he => .after (.expect _) fun _ => hgo [e] (by simp [he.sound])

theorem markupText : Reads src (fun _ => True) markupText := by
  refine .bind .here fun c hc => ?_
  refine .after (.set (hc.jump (eats_word _ (List.takeWhile_prefix _)))) fun _ => ?_
  exact .after (.at? _) fun _ => .after (.at? _) fun _ => .guardThat _

theorem markupChildren (h : SoundRules src rules) :
    Reads src (AllSound src) (markupChildren rules) := by
  refine .bind (.repeated (P := Sound src) ?_) fun items hitems => ?_
  · refine .after .markupText fun _ => .after (.at? _) fun _ => .ite ?_ ?_
    · refine .after .start fun a => .bind (.container h) fun e he => .bind .here fun c _ => ?_
      exact .pure (by simpa using sound_of_children (k := .markupContainer) nofun he)
    · refine .after .ahead fun next => .ite (.pure (by simp)) ?_
      exact .bind (h.sound _) fun t ht => .pure (by simpa using ht)
  · refine .after (.expect _) fun _ => .after (.expect _) fun _ => .after (.at? _) fun _ => ?_
    have hend : Reads src (AllSound src) (do
        Parser.guardThat (← Parser.at? ">")
        return items) :=
      .after (.at? _) fun _ => .after (.guardThat _) fun _ => .pure hitems
    exact .ite (.after .tagName fun _ => hend) hend

theorem markupElement (h : SoundRules src rules) :
    Reads src (Other src) (markupElement rules) := by
  refine .after .start fun a => .after (.expect _) fun _ => .after (.at? _) fun _ => ?_
  extract_lets go
  have hgo (attributes : List Tree) (hattributes : AllSound src attributes) :
      Reads src (Other src) (go attributes) := by
    refine .after (.accept _) fun _ => ?_
    extract_lets finish
    have hfinish (children : List Tree) (hchildren : AllSound src children) :
        Reads src (Other src) (finish children) :=
      .bind .here fun _ _ => .pure
        ⟨sound_of_children nofun (by simp [hattributes, hchildren]), nofun, nofun⟩
    refine .ite ?_ ?_
    · exact .after (.at? _) fun _ => .after (.guardThat _) fun _ => hfinish [] allSound_nil
    · refine .after (.at? _) fun _ => .after (.guardThat _) fun _ => ?_
      exact .bind (.markupChildren h) hfinish
  refine .ite (hgo [] allSound_nil) (.after .tagName fun _ => ?_)
  refine .bind (.repeated (P := Sound src) ?_) hgo
  refine .after (.at? _) fun _ => .after (.at? _) fun _ => .ite (.pure (by simp)) ?_
  exact .bind (.tagAttribute h) fun t ht => .pure (by simpa using ht)

/-! ## Operators -/

theorem postfixFrom (ht : Sound src t) : Reads src (Sound src) (postfixFrom a t) := by
  refine .after (.at? _) fun _ => .after (.at? _) fun _ => .after .onNewLine fun _ => ?_
  exact .ite (.after .advance fun _ => .close nofun (by simp [ht])) (.pure ht)

theorem prefixed (h : SoundRules src rules) {k : Kind} (hk : k ≠ .newExpression) :
    Reads src (Sound src) (prefixed rules k) := by
  refine .after .start fun a => .after .advance fun _ => .bind (h.sound _) fun t ht => ?_
  exact .close hk (by simp [ht])

theorem unary (h : SoundRules src rules) : Reads src (Sound src) (unary rules) := by
  refine .after .start fun a => .after .token fun token => ?_
  extract_lets go
  have hgo (u : Unit) : Reads src (Sound src) (go u) :=
    .bind (h.sound _) fun t ht => .postfixFrom ht
  split
  · refine .ite (.prefixed h nofun) (.ite (.prefixed h nofun) (.after .isTyped fun _ => ?_))
    refine .ite (.after .ahead fun _ => .ite ?_ ?_) (hgo ())
    · refine .after .advance fun _ => .after .advance fun _ => .after (.expect _) fun _ => ?_
      exact .bind (h.sound _) fun t ht => .close nofun (by simp [ht])
    · refine .bind (.typeArguments h) fun ts hts => .bind (h.sound _) fun t ht => ?_
      exact .close nofun (by simp [hts, ht])
  · refine .ite (.prefixed h nofun) (.after .ahead fun _ => .ite ?_ (hgo ()))
    refine .bind (.attempt (.prefixed h nofun)) fun o ho => ?_
    split
    · exact .pure (ho _ rfl)
    · exact hgo ()
  · exact .after .ahead fun _ => .after (.guardThat _) fun _ => .leaf nofun
  · exact hgo ()

theorem operationFrom (h : SoundRules src rules) (level : Nat) (noIn : Bool) (ht : Sound src t) :
    Reads src (Sound src) (operationFrom rules a level noIn t) := by
  refine .bind (.repeated (P := SoundStep src) (.of_at fun c hc => ?_)) fun steps hsteps =>
    .pure (sound_foldl_apply hsteps ht)
  refine .look (g := id) ?_
  split
  · exact .pure hc (by simp)
  · rename_i o ho
    refine .ite (fun _ => .pure hc (by simp)) fun _ => .advanceOver hc (width_operator ho) ?_
    refine fun d hd => Reads.at (P := fun o => ∀ s ∈ o, SoundStep src s) ?_ hd fun _ _ hs => hs
    refine .ite (.after (.acceptWord _) fun _ => .ite ?_ ?_) ?_
    · exact .step fun _ => ⟨allSound_nil, nofun⟩
    · refine .bind (h.sound _) fun u hu => .step fun _ => ⟨by simp [hu], ?_⟩
      dsimp only
      split <;> nofun
    · exact .bind (h.sound _) fun u hu => .step fun _ => ⟨by simp [hu], nofun⟩

theorem operation (h : SoundRules src rules) (level : Nat) (noIn : Bool) :
    Reads src (Sound src) (operation rules level noIn) :=
  .after .start fun _ => .bind (h.sound _) fun _ ht => .operationFrom h level noIn ht

/-! ## Assignments -/

theorem conditionalFrom (h : SoundRules src rules) (mode : Mode) (ht : Sound src t) :
    Reads src (Sound src) (conditionalFrom rules a mode t) := by
  refine .after (.accept _) fun _ => .ite (.bind (h.sound _) fun x hx => ?_) (.pure ht)
  refine .after (.expect _) fun _ => .bind (h.sound _) fun y hy => ?_
  exact .close nofun (by simp [ht, hx, hy])

theorem assignmentFrom (h : SoundRules src rules) (mode : Mode) (ht : Sound src t) :
    Reads src (Sound src) (assignmentFrom rules a mode t) := by
  refine .after (.accept _) fun _ => .ite ?_ (.of_at fun c hc => .look (g := id) ?_)
  · split
    · exact .failure
    · rename_i p hp
      have hp := sound_toPattern hp ht
      exact .bind (h.sound _) fun v hv => .close nofun (by simp [hp, hv])
  · split
    · exact .pure hc ht
    · rename_i k hk
      refine .guardThat fun _ => .advanceOver hc (width_augmented hk) fun d hd => ?_
      have hvalue : Reads src (Sound src) (do
          let v ← rules (.assignment mode)
          Parser.close .augmentedAssignment a [t.withRole .left, v.withRole .right]) :=
        .bind (h.sound _) fun v hv => .close nofun (by simp [ht, hv])
      exact hvalue.at hd fun _ _ ht => ht

theorem afterOperand (h : SoundRules src rules) (mode : Mode) (ht : Sound src t) :
    Reads src (Sound src) (afterOperand rules a mode t) :=
  .bind (.operationFrom h _ _ ht) fun _ ht => .bind (.conditionalFrom h mode ht) fun _ ht =>
    .assignmentFrom h mode ht

theorem afterPrimary (h : SoundRules src rules) (mode : Mode) (ht : Sound src t) :
    Reads src (Sound src) (afterPrimary rules a mode t) :=
  .bind (.chainFrom h ht) fun _ ht => .bind (.postfixFrom ht) fun _ ht => .afterOperand h mode ht

theorem yieldExpression (h : SoundRules src rules) (mode : Mode) :
    Reads src (Sound src) (yieldExpression rules mode) := by
  have hvalue (a : Nat) : Reads src (Sound src) (do
      let t ← rules (.assignment mode)
      Parser.close .yieldExpression a [t]) :=
    .bind (h.sound _) fun t ht => .close nofun (by simp [ht])
  refine .after .start fun a => .after (.expectWord _) fun _ => .after (.accept _) fun _ => ?_
  refine .ite (hvalue a) (.after .onNewLine fun _ => .after .token fun _ => ?_)
  exact .ite (hvalue a) (.close nofun allSound_nil)

theorem parenthesisStart (h : SoundRules src rules) (mode : Mode) :
    Reads src (Sound src) (parenthesisStart rules mode) := by
  refine .bind .here fun c hc => .bind (.attempt (.parenthesized h)) fun o ho => ?_
  split
  · exact .arrow h mode
  · rename_i t
    have ht : Sound src t := (ho t rfl).sound
    refine .after (.at? _) fun _ => .ite (.after (.set hc) fun _ => .arrow h mode) ?_
    refine .after .isTyped fun _ => .after (.at? _) fun _ => .ite ?_ (.afterPrimary h mode ht)
    refine .bind .here fun d hd => .after (.set hc) fun _ => ?_
    refine .bind (.attempt (.arrow h mode)) fun f hf => ?_
    split
    · exact .pure (hf _ rfl)
    · exact .after (.set hd) fun _ => .afterPrimary h mode ht

theorem usualStart (h : SoundRules src rules) (mode : Mode) :
    Reads src (Sound src) (usualStart rules mode) :=
  .after .start fun _ => .bind (h.sound _) fun _ ht => .afterOperand h mode ht

theorem assignmentExpression (h : SoundRules src rules) (mode : Mode) :
    Reads src (Sound src) (assignmentExpression rules mode) := by
  -- what is no arrow is read in the usual way
  have hattempt {p : Parser Tree} {go : Option Tree → Parser Tree} (hp : Reads src (Sound src) p)
      (hsome : ∀ f, go (some f) = Pure.pure f) (hnone : go none = Grammar.usualStart rules mode) :
      Reads src (Sound src) (Parser.attempt p >>= go) := by
    refine .bind (.attempt hp) fun f hf => ?_
    cases f with
    | some f =>
      rw [hsome]
      exact .pure (hf f rfl)
    | none =>
      rw [hnone]
      exact .usualStart h mode
  refine .after .token fun token => ?_
  split
  · exact .parenthesisStart h mode
  · exact .after .isTyped fun _ => .ite (hattempt (.arrow h mode) (fun _ => rfl) rfl)
      (.usualStart h mode)
  · refine .after .ahead fun next => .ite (.yieldExpression h mode) (.ite (.nameArrow h mode) ?_)
    refine .ite ?_ (.usualStart h mode)
    split
    · exact .ite (hattempt (.nameArrow h mode) (fun _ => rfl) rfl) (.usualStart h mode)
    · exact hattempt (.arrow h mode) (fun _ => rfl) rfl
    · exact hattempt (.arrow h mode) (fun _ => rfl) rfl
    · exact .usualStart h mode
  · exact .usualStart h mode

theorem sequence (h : SoundRules src rules) (noIn : Bool) :
    Reads src (Sound src) (sequence rules noIn) := by
  refine .after .start fun a => .bind (.commaList (h.sound _)) fun ts hts => ?_
  split
  · exact .pure (hts _ (by simp))
  · exact .close nofun hts

end Reads

end SceneSync.Script
