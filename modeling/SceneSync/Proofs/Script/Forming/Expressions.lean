import Mathlib
import SceneSync.Proofs.Script.Forming.Markup

/-!
# Forming expressions

The rules for operators and assignments give formed trees, if the goals that they open do.
-/

namespace SceneSync.Script

open Script.Parser Script.Tree Grammar

variable {src : List Char} {dialect : Dialect} {rules : Rules} {r : Reach} {t p : Tree}
  {ts : List Tree} {k : Kind} {a n : Nat} {c : Cursor} {β : Type}

/-! ## Unary operators -/

theorem Grows.postfixFrom (t : Tree) : Grows src dialect a t (postfixFrom a t) := by
  refine .look (.at? _) fun _ => .look (.at? _) fun _ => .look .onNewLine fun _ => .ite ?_ ?_
  · exact .behind (.skip (.close rfl (by simp)))
  · exact .result id

theorem Leads.prefixed {x : Token} (h : FormingRules src dialect rules)
    (hk : isFree k = true)
    (hreal : x.isReal = true) :
    Leads src (fun c => Starts src dialect a c ∧ c.token = x) (Whole src dialect a .firm Usual)
      (prefixed rules k) :=
  .startAt fun _ => .advance hreal (.child (h .unary) fun _ _ => .close hk (by simp))

theorem Yields.unary (h : FormingRules src dialect rules) :
    Yields src dialect .firm Usual (unary rules) := by
  refine .starting fun a => .token fun x => ?_
  extract_lets go
  have hgo (u : Unit) : Leads src (Starts src dialect a) (Whole src dialect a .firm Usual) (go u) :=
    .bind (h .chain a) Grows.postfixFrom
  have hprefixed (k : Kind) (hk : isFree k = true) (hreal : x.isReal = true) :=
    Leads.prefixed (a := a) h hk hreal
  split
  · refine .ite (hprefixed .unaryExpression rfl rfl) ?_
    refine .ite (hprefixed .updateExpression rfl rfl) ?_
    refine .look .isTyped fun _ => .ite (.look .ahead fun _ => .ite ?_ ?_) (.forget (hgo ()))
    · refine .startSeen (.advance rfl (.skip (.take (.expect _) fun _ => ?_)))
      exact .child (h .unary) fun t _ => .close rfl (by simp)
    · refine .forget (.laid (.child (.typeArguments h) fun ts _ => ?_))
      exact .child (h .unary) fun t _ => .close rfl (by simp)
  · refine .ite (hprefixed .unaryExpression rfl rfl) ?_
    refine .look .ahead fun _ => .ite (.attempt ?_ (fun t => .result id) ?_) (.forget (hgo ()))
    · exact hprefixed .awaitExpression rfl rfl
    · exact .forget (hgo ())
  · exact .look .ahead fun _ => .look (.guardThat _) fun _ =>
      .usual (.leaf (k := .privateIdentifier) rfl rfl)
  · exact .forget (hgo ())

/-! ## Binary operators -/

theorem Leads.advanceOver {f : Unit → Parser β} {S : β → Cursor → Prop}
    (hc : Laid src dialect a .firm ts c) (hn : width (c.rest.take n) = n)
    (hf : Leads src (Laid src dialect a .firm ts) S (f ())) :
    ReadsAt src c S (advanceOver n >>= f) := by
  refine hf _ (hc.shift (hc.placed.jump (eats_drop_of_width hn)) ?_)
  rw [Cursor.jump_previous]
  exact (hc.placed.previous_le_start.trans hc.placed.start_le).trans (Nat.le_add_right _ _)

theorem Grows.operationFrom (h : FormingRules src dialect rules) (level : Nat) (noIn : Bool)
    (t : Tree) : Grows src dialect a t (operationFrom rules a level noIn t) := by
  refine .steps (fun t c hc => .look (g := id) ?_) t
  have hnone : ReadsAt src c (Grown src dialect a t) (pure none) := .pure hc.placed.within hc
  split
  · exact hnone
  · rename_i o ho
    refine .ite (fun _ => hnone) fun _ => Leads.advanceOver hc.laid (width_operator ho) (.ite ?_ ?_)
    · refine .move (.acceptWord _) fun _ => .ite ?_ (.child (h .type) fun u _ => ?_)
      · exact Leads.step rfl (by simp)
      · exact .step (by split <;> rfl) (by simp)
    · exact .child (h (.operation _ noIn)) fun u _ => .step rfl (by simp)

theorem Yields.operation (h : FormingRules src dialect rules) (level : Nat) (noIn : Bool) :
    Yields src dialect .firm Usual (operation rules level noIn) :=
  .starting fun a => .bind (h .unary a) (Grows.operationFrom h level noIn)

/-! ## Assignments -/

theorem Grows.conditionalFrom (h : FormingRules src dialect rules) (mode : Mode) (t : Tree) :
    Grows src dialect a t (conditionalFrom rules a mode t) := by
  refine .goesOn (.child (h (.assignment ⟨false, true⟩)) fun x _ => ?_) (.result id)
  refine .take (.expect _) fun _ => .child (h (.assignment mode)) fun y _ => ?_
  exact .close rfl (by simp)

/-- A literal is read as a pattern where it stands. -/
theorem Laid.toPattern (h : Laid src dialect a r [t] c) (hp : toPattern? t = some p) :
    Laid src dialect a r [p] c := by
  obtain ⟨hformed, hstart, hstop⟩ := formed_toPattern hp (h.formed t (by simp))
  refine ⟨h.placed, h.first, ?_, by simpa using hformed, ?_⟩
  · exact ⟨hstart ▸ h.ordered.1, hformed.nested, hstop ▸ h.ordered.2.2⟩
  · have hlast : lastStop 0 [p] = lastStop 0 [t] := hstop
    rw [hlast]
    exact h.begun

theorem Grows.assignmentFrom (h : FormingRules src dialect rules) (mode : Mode) (t : Tree) :
    Grows src dialect a t (assignmentFrom rules a mode t) := by
  refine .goesOn (.ifs (fun _ => ?_) fun h => absurd rfl h) fun c hc => .look (g := id) ?_
  · split
    · exact .failure
    · rename_i p hp
      have hvalue : Leads src (Laid src dialect a .firm [p]) (Whole src dialect a .firm Usual) (do
          let v ← rules (.assignment mode)
          Parser.close .assignmentExpression a [p.withRole .left, v.withRole .right]) :=
        .child (h (.assignment mode)) fun v _ => .close rfl (by simp)
      exact fun c hc => hvalue c (hc.toPattern hp)
  · split
    · exact .pure hc.placed.within hc
    · rename_i n hn
      refine .guardThat fun _ => Leads.advanceOver hc.laid (width_augmented hn) ?_
      exact .child (h (.assignment mode)) fun v _ => .close rfl (by simp)

theorem Grows.afterOperand (h : FormingRules src dialect rules) (mode : Mode) (t : Tree) :
    Grows src dialect a t (afterOperand rules a mode t) :=
  Leads.bind (Grows.operationFrom h 1 mode.noIn t) fun t =>
    Leads.bind (Grows.conditionalFrom h mode t) (Grows.assignmentFrom h mode)

theorem Grows.afterPrimary (h : FormingRules src dialect rules) (mode : Mode) (t : Tree) :
    Grows src dialect a t (afterPrimary rules a mode t) :=
  Leads.bind (Grows.chainFrom h true t) fun t =>
    Leads.bind (Grows.postfixFrom t) (Grows.afterOperand h mode)

namespace Yields

theorem yieldExpression (h : FormingRules src dialect rules) (mode : Mode) :
    Yields src dialect .firm Usual (yieldExpression rules mode) := by
  refine .start fun a => .take (.expectWord _) fun _ => .move (.accept _) fun _ => ?_
  have hvalue : Leads src (Laid src dialect a .firm []) (Whole src dialect a .firm Usual) (do
      let t ← rules (.assignment mode)
      Parser.close .yieldExpression a [t]) :=
    .child (h (.assignment mode)) fun t _ => .close rfl (by simp)
  refine .ite hvalue (.look .onNewLine fun _ => .look .token fun _ => .ite hvalue ?_)
  exact .close rfl (by simp)

theorem parenthesisStart (h : FormingRules src dialect rules) (mode : Mode) :
    Yields src dialect .firm Usual (parenthesisStart rules mode) := by
  rintro _ c ⟨hc, rfl⟩
  refine .look (g := id) ?_
  -- where parameters are read instead the parser goes back to the parenthesis
  have harrow := Yields.arrow h mode c.start c hc.starts
  refine .bind (.attempt (parenthesized h c.start c hc.starts) hc.within) fun o d hd ho => ?_
  cases o with
  | none =>
    obtain rfl : d = c := ho
    exact harrow
  | some t =>
    have hafter : ReadsAt src d (Whole src dialect c.start .firm Usual)
        (Grammar.afterPrimary rules c.start mode t) := Grows.afterPrimary h mode t d ho
    refine .lookAt (.at? _) fun _ => .ite (fun _ => .set harrow) fun _ => ?_
    refine .lookAt .isTyped fun _ => .lookAt (.at? _) fun _ => .ite (fun _ => ?_) fun _ => hafter
    refine .look (g := id) (.set (.bind (.attempt harrow hc.within) fun f e he hf => ?_))
    cases f with
    | none => exact .set hafter
    | some f => exact .pure he hf

theorem usualStart (h : FormingRules src dialect rules) (mode : Mode) :
    Yields src dialect .firm Usual (usualStart rules mode) :=
  .starting fun a => .bind (h .unary a) (Grows.afterOperand h mode)

theorem assignmentExpression (h : FormingRules src dialect rules) (mode : Mode) :
    Yields src dialect .firm Usual (assignmentExpression rules mode) := by
  -- what is no arrow is read in the usual way
  have hattempt {p : Parser Tree} {go : Option Tree → Parser Tree}
      (hp : Yields src dialect .firm Usual p) (hsome : ∀ f, go (some f) = Pure.pure f)
      (hnone : go none = Grammar.usualStart rules mode) :
      Yields src dialect .firm Usual (Parser.attempt p >>= go) := by
    refine fun a => .attempt (hp a) (fun f => ?_) ?_
    · rw [hsome]
      exact .result id
    · rw [hnone]
      exact usualStart h mode a
  refine .look .token fun x => ?_
  split
  · exact parenthesisStart h mode
  · exact .look .isTyped fun _ => .ite (hattempt (arrow h mode) (fun _ => rfl) rfl)
      (usualStart h mode)
  · refine .look .ahead fun next => .ite (yieldExpression h mode) (.ite (nameArrow h mode) ?_)
    refine .ite ?_ (usualStart h mode)
    split
    · exact .ite (hattempt (nameArrow h mode) (fun _ => rfl) rfl) (usualStart h mode)
    · exact hattempt (arrow h mode) (fun _ => rfl) rfl
    · exact hattempt (arrow h mode) (fun _ => rfl) rfl
    · exact usualStart h mode
  · exact usualStart h mode

theorem sequence (h : FormingRules src dialect rules) (noIn : Bool) :
    Yields src dialect .firm Usual (sequence rules noIn) := by
  have hitem : Yields src dialect .firm Usual (rules (.assignment ⟨noIn, false⟩)) :=
    h (.assignment ⟨noIn, false⟩)
  refine .starting fun a => ?_
  rw [Parser.commaList]
  simp only [bind_assoc, pure_bind]
  refine .first hitem fun t _ => .more (.behindEach hitem) (.result id) fun us hus => ?_
  obtain ⟨u, us, rfl⟩ := List.exists_cons_of_ne_nil hus
  exact .close rfl (by simp)

end Yields

end SceneSync.Script
