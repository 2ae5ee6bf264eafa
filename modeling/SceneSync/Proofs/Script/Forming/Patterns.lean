import Mathlib
import SceneSync.Proofs.Script.Forming.Types

/-!
# Forming patterns and parameters

The rules for patterns, decorators and parameters give formed trees, if the goals that they
open do.
-/

namespace SceneSync.Script

open Script.Parser Script.Tree Grammar

variable {src : List Char} {dialect : Dialect} {rules : Rules} {r : Reach}

/-! ## Patterns -/

namespace Yields

theorem patternWithDefault (h : FormingRules src dialect rules) :
    Yields src dialect .firm Usual (patternWithDefault rules) := by
  refine .starting fun a => .first (h .pattern) fun p hp => .goesOn ?_ (.result id)
  exact .child (h (.assignment .usual)) fun v _ => .close rfl (by simp)

theorem restPattern (h : FormingRules src dialect rules) :
    Yields src dialect .firm Usual (restPattern rules) := by
  refine .start fun a => .take (.expect _) fun _ => .child (h .pattern) fun p _ => ?_
  exact .close rfl (by simp)

end Yields

/-- A name between braces stands for itself. -/
theorem Leads.shorthand {a : Nat} {x : Token} {k : Tree} {β : Type} {S : β → Cursor → Prop}
    {p : Parser β} (hname : isNameToken x = true)
    (hp : Leads src (Whole src dialect a .firm Usual (k.withKind .shorthandName)) S p) :
    Leads src (Whole src dialect a .firm
      (fun k => Usual k ∧ (isNameToken x = true → k.children = [])) k) S p := by
  intro c hc
  have hleaf := hc.property.2 hname
  have husual := hc.property.1
  refine hp c ?_
  obtain ⟨r, kind, b, n, ts⟩ := k
  obtain rfl : ts = [] := hleaf
  have hformed := formed_node.mp hc.formed
  exact ⟨hc.placed, hc.start, formed_node.mpr ⟨hformed.1, ⟨hformed.2.1.start, hformed.2.1.stop, rfl⟩,
    hformed.2.2⟩, hc.begun, hc.stop, ⟨husual.role, nofun⟩⟩

namespace Yields

theorem objectPatternMember (h : FormingRules src dialect rules) :
    Yields src dialect .firm Usual (objectPatternMember rules) := by
  refine .look (.at? _) fun _ => .ite (.restPattern h) (.starting fun a => .token fun x => ?_)
  refine .bind (memberKey_at h a x) fun k => .goesOn ?_ (.guardThat fun hname => ?_)
  · exact .child (.patternWithDefault h) fun v _ => .close rfl (by simp)
  · refine .shorthand hname (.goesOn ?_ (.result id))
    exact .child (h (.assignment .usual)) fun v _ => .close rfl (by simp)

theorem objectPattern (h : FormingRules src dialect rules) :
    Yields src dialect .firm Usual (objectPattern rules) := by
  refine .start fun a => .take (.expect _) fun _ => ?_
  exact .children (.listUntil (.objectPatternMember h)) fun ms _ => .close rfl (by simp)

end Yields

theorem Lists.sparseList {r : Reach} {item : Parser Tree}
    (hitem : Yields src dialect .firm Usual item) :
    Lists src dialect r .firm Usual (sparseList item) := by
  have hstep : Steps src dialect r Usual id (do
      if ← Parser.at? "]" then return none
      if ← Parser.accept "," then return some []
      let x ← item
      if !(← Parser.at? "]") then Parser.expect ","
      return some [x]) := by
    refine fun a ts => .look (.at? _) fun _ => .ite Steps.ends (.accept ?_ ?_)
    · exact .weaken (Steps.skips rfl)
    · have hloose : Yields src dialect r Usual item := hitem.loosen
      refine .child hloose fun t ht => .look (.at? _) fun _ => ?_
      have hdone : Leads src (Laid src dialect a r (ts ++ [t])) _ (pure (some [t])) :=
        Steps.lays id [t] (by simpa using ht)
      exact .ite (.take (.expect _) fun _ => .weaken hdone) hdone
  refine fun a ts => .bind (hstep.repeated a ts) fun items => ?_
  rintro c ⟨hc, hitems⟩
  rw [List.flatMap_id] at hc hitems
  exact (Leads.take (.expect _) fun _ => .results (by simp) hitems) c hc

namespace Yields

theorem arrayPattern (h : FormingRules src dialect rules) :
    Yields src dialect .firm Usual (arrayPattern rules) := by
  refine .start fun a => .take (.expect _) fun _ => .children (.sparseList ?_) fun es _ => ?_
  · exact .look (.at? _) fun _ => .ite (.restPattern h) (.patternWithDefault h)
  · exact .close rfl (by simp)

theorem pattern (h : FormingRules src dialect rules) :
    Yields src dialect .firm Usual (pattern rules) := by
  refine .look (.at? _) fun _ => .ite (.objectPattern h) (.look (.at? _) fun _ => ?_)
  exact .ite (.arrayPattern h) (.usual .identifier)

end Yields

theorem Yields.decorator (h : FormingRules src dialect rules) :
    Yields src dialect .firm Usual (decorator rules) := by
  refine .start fun a => .take (.expect _) fun _ => .look (.at? _) fun _ => .ite ?_ ?_
  · refine .take (.expect _) fun _ => .child (h (.expression false)) fun e _ => ?_
    exact .take (.expect _) fun _ => .close rfl (by simp)
  · refine .child (.anyName rfl) fun n _ => .children (P := Usual) (.repeated ?_) ?_
    · refine fun a ts => .accept (.token fun x => ?_) Steps.ends
      split
      · exact .leafChild (fun _ hm => Steps.one hm.toUsual) rfl rfl
      · exact .forget (.child (.usual (.anyName rfl)) fun _ hm => Steps.one hm)
    · intro ns _
      refine .look .isTyped fun _ => .look (.at? _) fun _ => .maybe (.typeArguments h) fun ts _ => ?_
      extract_lets go
      have hgo (args : List Tree) :
          Leads src (Laid src dialect a .firm ([] ++ [n] ++ ns ++ ts ++ args))
            (Whole src dialect a .firm Usual) (go args) := .close rfl (by simp)
      refine .accept (.children (P := Usual) (.listUntil_of_lays ?_) fun args _ => hgo args) ?_
      · exact fun a ts => .move (.accept _) fun _ => (h (.assignment .usual)).lays a ts
      · simpa using hgo []

theorem Lists.decorators (h : FormingRules src dialect rules) :
    Lists src dialect r r Usual (decorators rules) :=
  .repeated fun _ _ => .look (.at? _) fun _ => .ite
    (.child (Yields.decorator h).loosen fun _ ht => Steps.one ht) Steps.ends

/-! ## Parameters -/

theorem Looks.modifies : Looks modifies := by
  refine .bind .ahead fun p => ?_
  split <;> exact .pure _

theorem Yields.typedParameter (h : FormingRules src dialect rules) (htyped : dialect = .typed) :
    Yields src dialect .firm Usual (typedParameter rules) := by
  refine .start fun a => .children (.decorators h) fun ds _ => .move (.repeated ?_) fun _ => ?_
  · intro c hc
    have hnone : ReadsAt src c _ (pure none : Parser (Option Unit)) := Moves.pure none c hc
    refine .look ?_
    split
    · rename_i hname
      refine .lookAt .modifies fun _ => .ite (fun _ => ?_) fun _ => hnone
      exact hc.taken (by rw [hname]; rfl)
    · exact hnone
  · refine .look (.at? _) fun _ => .atWord fun _ => ?_
    extract_lets go
    have hgo (p : Tree) : Leads src (Laid src dialect a .firm ([] ++ ds ++ [p]))
        (Whole src dialect a .firm Usual) (go p) := by
      refine .move (.accept _) fun optional => .children (.optionalDeclaredType h) fun t _ => ?_
      refine .move (.accept _) fun _ => .maybeAs (h (.assignment .usual)) fun v _ => ?_
      refine .closeShaped nofun (by simp) (fun _ _ => ?_) fun _ => ⟨rfl, ?_⟩
      · split <;> exact htyped
      · simp only [Tree.kind]
        split <;> simp
    refine .ifs (fun _ => .forget (.child (.restPattern h) fun p _ => hgo p)) fun _ => ?_
    exact .ifSeen (.thisChild fun p _ => hgo p) (.child (h .pattern) fun p _ => hgo p)

theorem Yields.parameter (h : FormingRules src dialect rules) :
    Yields src dialect .firm Usual (parameter rules) := by
  refine .isTyped fun _ htyped => .ifs (fun ht => .typedParameter h (htyped ht)) fun _ => ?_
  exact .look (.at? _) fun _ => .ite (.restPattern h) (.patternWithDefault h)

/-- Parentheses of one byte each stand around the parameters. -/
theorem Yields.formalParameters (h : FormingRules src dialect rules) :
    Yields src dialect .firm (fun t => Usual t ∧ t.kind = .formalParameters)
      (formalParameters rules) := by
  rintro _ c ⟨hc, rfl⟩
  refine .look (.expect fun hopen => ?_)
  obtain ⟨hfirst, hstop⟩ := hc.mark hopen (x := '(') rfl rfl
  refine .bind (Lists.listUntil_at (Yields.parameter h).lays _ [] _ hc.advance.starts.laid) ?_
  rintro ps _ - ⟨⟨e, hlaid, hclose, rfl⟩, -⟩
  obtain ⟨hlast, hend⟩ := hlaid.placed.mark hclose (x := ')') rfl rfl
  have hafter : c.start + 1 ≤ c.advance.start := by
    have hnext := hc.advance.previous_le_start
    rwa [Cursor.advance_previous, hstop] at hnext
  have hinner : Ordered (c.start + 1) e.start ps := hlaid.ordered.mono_start hafter
  have hspace : c.start + 1 ≤ e.start := hinner.start_le_stop
  have hprevious : e.advance.previous = e.start + 1 := by rw [Cursor.advance_previous, hend]
  have hbegun : Begun src c.start e.advance.previous :=
    (hc.past (by rw [hopen]; rfl)).mono (by rw [Cursor.advance_previous, hstop]; omega)
  have houter : Laid src dialect c.start .firm ps e.advance :=
    ⟨hlaid.placed.advance, hc.start,
      (hinner.mono_start (Nat.le_succ _)).mono (by rw [Reach.edge, hprevious]; omega),
      hlaid.formed, .inr (hbegun.mono (le_max_left _ _))⟩
  refine houter.closes nofun rfl ?_ fun _ => ⟨⟨rfl, nofun⟩, rfl⟩
  rw [max_eq_left (show _ ≤ e.advance.previous from houter.last_le), hprevious]
  exact ⟨hfirst, by omega, hinner, hlast⟩

end SceneSync.Script
