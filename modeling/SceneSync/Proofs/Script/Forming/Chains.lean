import Mathlib
import SceneSync.Proofs.Script.Forming.Declarations
import SceneSync.Script.Grammar.Expression

/-!
# Forming chains

A primary expression grows by members, calls and templates. Each step puts a node around
what was read, up to the token before the cursor.
-/

namespace SceneSync.Script

open Script.Parser Grammar

variable {src : List Char} {dialect : Dialect} {rules : Rules} {r : Reach} {t u : Tree}
  {ts us vs : List Tree} {ρ : Role} {k : Kind} {a : Nat} {c : Cursor}

/-! ## Steps -/

/-- What a step puts around a node that starts at byte `a`. -/
def Grown (src : List Char) (dialect : Dialect) (a : Nat) (t : Tree) (o : Option Step) :
    Cursor → Prop :=
  o.elim (Whole src dialect a .firm Usual t) fun s => Whole src dialect a .firm Usual (s.apply a t)

/-- What goes on with a node. -/
def Grows (src : List Char) (dialect : Dialect) (a : Nat) (t : Tree) (p : Parser Tree) : Prop :=
  Leads src (Whole src dialect a .firm Usual t) (Whole src dialect a .firm Usual) p

theorem Leads.step (hk : isFree k = true)
    (hsame : (t.withRole ρ :: vs).map Tree.bare = ([t] ++ us).map Tree.bare) :
    Leads src (Laid src dialect a .firm ([t] ++ us)) (Grown src dialect a t) (step k ρ vs) :=
  fun _ hc => .look (.pure hc.placed.within (hc.whole_around hk hsame))

/-- Steps that each grow the node. -/
theorem Grows.steps {p : Parser (Option Step)}
    (hp : ∀ t, Leads src (Whole src dialect a .firm Usual t) (Grown src dialect a t) p) (t : Tree) :
    Grows src dialect a t (do
      let steps ← Parser.repeated p
      return steps.foldl (Step.apply a) t) :=
  Leads.steps hp t

theorem Yields.arguments (h : FormingRules src dialect rules) :
    Yields src dialect .firm (fun t => t.role = .arguments ∧ t.kind = .arguments)
      (arguments rules) := by
  refine .start fun a => .take (.expect _) fun _ => ?_
  refine .children (.listUntil (.argument h)) fun es hes => ?_
  have hclose : Leads src (Laid src dialect a .firm ([] ++ es))
      (Whole src dialect a .firm fun t => t.kind = .arguments) (Parser.close .arguments a es) :=
    .closeShaped nofun rfl (fun _ _ c hc => (hes c hc).role) fun _ => rfl
  refine .bind hclose fun t => .resultAs fun hkind => ?_
  obtain ⟨r, k, x, y, ts⟩ := t
  exact ⟨rfl, hkind⟩

/-- Without type arguments the cursor stays. -/
theorem ReadsAt.calledTypeArguments (h : FormingRules src dialect rules)
    (hc : Laid src dialect a .firm ts c) :
    ReadsAt src c (fun o d => Laid src dialect a .firm (ts ++ o.toList) d ∧
      ∀ u ∈ o, u.role = .typeArguments) (calledTypeArguments rules) := by
  have hnone : Laid src dialect a .firm (ts ++ (none : Option Tree).toList) c := by simpa using hc
  refine .lookAt .isTyped fun _ => .lookAt (.at? _) fun _ => .ite (fun _ => ?_) fun _ =>
    .pure hc.placed.within ⟨hnone, by simp⟩
  have hread : Leads src (Laid src dialect a .firm ts)
      (fun u d => Laid src dialect a .firm (ts ++ [u]) d ∧ u.role = .typeArguments) (do
        let u ← Grammar.typeArguments rules
        Parser.guardThat (endsTypeArguments (← Parser.here))
        return u.withRole .typeArguments) :=
    .child (.typeArguments h) fun u _ => .look .here fun _ => .look (.guardThat _) fun _ d hd =>
      .pure hd.placed.within ⟨hd.congr (by simp), role_withRole⟩
  refine (ReadsAt.attempt (hread c hc) hc.placed.within).mono fun o d ho => ?_
  cases o with
  | none =>
    obtain rfl : d = c := ho
    exact ⟨hnone, by simp⟩
  | some u => exact ⟨ho.1, by simpa using ho.2⟩

namespace Leads

theorem memberStep : Leads src (Laid src dialect a .firm [t]) (Grown src dialect a t) memberStep := by
  have hgo (n : Tree) : Leads src (Laid src dialect a .firm ([t] ++ [n])) (Grown src dialect a t)
      (Grammar.step .memberExpression .object [n.withRole .property]) := .step rfl (by simp)
  refine .token fun x => ?_
  split
  · exact .leafChild (fun n _ => hgo n) rfl rfl
  · exact .forget (.child (.anyName rfl) fun n _ => hgo n)

theorem subscriptStep (h : FormingRules src dialect rules) :
    Leads src (Laid src dialect a .firm [t]) (Grown src dialect a t) (subscriptStep rules) :=
  .take (.expect _) fun _ => .child (h (.expression false)) fun _ _ => .take (.expect _) fun _ =>
    .step rfl (by simp)

theorem callStep (h : FormingRules src dialect rules) (ts : List Tree) :
    Leads src (Laid src dialect a .firm ([t] ++ ts)) (Grown src dialect a t) (callStep rules ts) := by
  have hgo (es : Tree) : Leads src (Laid src dialect a .firm ([t] ++ ts ++ [es]))
      (Grown src dialect a t) (Grammar.step .callExpression .callee (ts ++ [es])) := by
    rw [List.append_assoc]
    exact .step rfl (by simp)
  refine .look (.at? _) fun _ => .ite ?_ ?_
  · exact .child (.templateParts (h (.expression false))) fun es _ => hgo es
  · exact .child (.arguments h) fun es _ => hgo es

theorem chainStep (h : FormingRules src dialect rules) (calls : Bool) (t : Tree) :
    Leads src (Whole src dialect a .firm Usual t) (Grown src dialect a t) (chainStep rules calls) := by
  have hcall : Leads src (Whole src dialect a .firm Usual t) (Grown src dialect a t)
      (Grammar.callStep rules []) := .behind (by simpa using callStep h [])
  refine .goesOn memberStep ?_
  refine .look (.at? _) fun _ => .ite (.behind (subscriptStep h)) ?_
  refine .look (.at? _) fun _ => .ite hcall (.look (.at? _) fun _ => .ite hcall ?_)
  refine .look (.at? _) fun _ => .ite (.behind (.skip ?_)) ?_
  · refine .look (.at? _) fun _ => .ite (subscriptStep h) (.look .isTyped fun _ => ?_)
    refine .look (.at? _) fun _ => .maybe (.typeArguments h) fun ts _ => .look (.at? _) fun _ => ?_
    exact .look (.at? _) fun _ => .ite (callStep h ts) (.dropping memberStep)
  · refine .look .isTyped fun _ => .look (.at? _) fun _ => .look .onNewLine fun _ => .ite ?_ ?_
    · have hnonNull : Leads src (Laid src dialect a .firm ([t] ++ [])) (Grown src dialect a t)
          (Grammar.step .nonNullExpression .plain []) := .step rfl (by simp)
      exact .behind (.skip hnonNull)
    · have hnone : Leads src (Whole src dialect a .firm Usual t) (Grown src dialect a t)
          (Pure.pure none) := fun c hc => .pure hc.placed.within hc
      refine .ite (fun c hc => ?_) hnone
      refine .bind (.calledTypeArguments h hc.laid) fun o d _ ⟨hd, _⟩ => ?_
      cases o with
      | none => exact hnone d (hc.single (by simpa using hd))
      | some ts =>
        refine Leads.look (.at? _) (fun _ => .look (.at? _) fun _ => .ite (callStep h [ts]) ?_) d hd
        exact .step rfl (by simp)

end Leads

theorem Grows.chainFrom (h : FormingRules src dialect rules) (calls : Bool) (t : Tree) :
    Grows src dialect a t (chainFrom rules a t calls) :=
  .steps (Leads.chainStep h calls) t

/-! ## Primary expressions -/

/-- An element is read up to its last mark, which stands under the cursor. -/
theorem Leads.element {β : Type} {f : Tree → Parser β} {S : β → Cursor → Prop}
    (h : FormingRules src dialect rules)
    (hf : ∀ e, Leads src (Whole src dialect a .firm Usual e) S (f e)) :
    Leads src (Starts src dialect a) S (do
      let e ← rules .markup
      Parser.expect ">"
      f e) :=
  fun c hc => .bind (h .markup a c hc) fun e _ _ ⟨_, _, he⟩ => .expect fun _ => hf e _ he

namespace Yields

theorem parenthesized (h : FormingRules src dialect rules) :
    Yields src dialect .firm Usual (parenthesized rules) := by
  refine .start fun a => .take (.expect _) fun _ => .child (h (.expression false)) fun e _ => ?_
  exact .take (.expect _) fun _ => .close rfl (by simp)

theorem importExpression (h : FormingRules src dialect rules) :
    Yields src dialect .firm Usual (importExpression rules) := by
  refine .start fun a => .take (.expectWord _) fun _ => .move (.accept _) fun _ => .ite ?_ ?_
  · refine .child (.anyName rfl) fun _ _ => .dropping (.close rfl (by simp))
  · exact .child (.arguments h) fun es _ => .close rfl (by simp)

theorem primary (h : FormingRules src dialect rules) :
    Yields src dialect .firm Usual (primary rules) := by
  refine fun a => .token fun x => ?_
  split
  · exact .usual (.leaf (k := .number) rfl rfl)
  · exact .usual (.leaf (k := .string) rfl rfl)
  · exact .forget (templateParts (h (.expression false)) a)
  · exact .forget (parenthesized h a)
  · exact .forget (arrayLiteral h a)
  · exact .forget (objectLiteral h a)
  · exact .usual (.regexLiteral rfl)
  · exact .usual (.regexLiteral rfl)
  · exact .forget (classExpression h a)
  · exact .forget (.look .isTyped fun _ => .look (.guardThat _) fun _ =>
      .element h fun e => .result id)
  · refine .ifs (fun hthis => ?_) fun _ => ?_
    · obtain rfl := beq_iff_eq.mp hthis
      exact .usual .this
    refine .ite (.usual (.leaf (k := .superExpression) rfl rfl)) ?_
    refine .ite (.usual (.leaf (k := .literal) rfl rfl)) (.forget ?_)
    refine .ite (classExpression h a) (.ite (importExpression h a) (.look .atFunction fun _ => ?_))
    exact .ite (functionExpression h a) (.usual (identifier a))
  · exact .failure

/-! ## Constructions and chains -/

theorem construction (h : FormingRules src dialect rules) :
    Yields src dialect .firm Usual (construction rules) := by
  refine .start fun a => .take (.expectWord _) fun _ => .move (.accept _) fun _ => .ite ?_ ?_
  · exact .child (.anyName rfl) fun _ _ => .dropping (.close rfl (by simp))
  intro c hc
  -- what is constructed is a chain that starts behind the word
  have hgo (head : Tree) (d : Cursor) (hhead : Whole src dialect c.start .firm Usual head d) :
      ReadsAt src d (Whole src dialect a .firm Usual) (do
        let t ← Grammar.chainFrom rules c.start head false
        let ts ← Grammar.calledTypeArguments rules
        let es ← if ← Parser.at? "(" then pure [← Grammar.arguments rules] else pure []
        Parser.close .newExpression a (t.withRole .callee :: ts.toList ++ es)) := by
    refine .bind (Grows.chainFrom h false head d hhead) fun t d _ ht => ?_
    refine .bind (.calledTypeArguments h (hc.add ht)) fun ts d _ ⟨hd, hts⟩ => ?_
    refine Leads.look (.at? _) (fun _ => .maybe (.arguments h) fun es hes => ?_) d hd
    refine .closeShaped nofun (by simp) (fun b _ x hx hrole => ?_) fun _ => ⟨rfl, nofun⟩
    simp only [List.cons_append, List.mem_cons, List.mem_append, Option.mem_toList] at hx
    rcases hx with rfl | hx | hx
    · simp at hrole
    · simp [hts x hx] at hrole
    · exact (hes x hx).2
  refine .look (.look (g := fun c => c.token == .name "new") (.ite (fun _ => ?_) fun _ => ?_))
  · exact .bind (h .construction c.start c hc.placed.starts) fun head d _ hhead => hgo head d hhead
  · exact .bind (primary h c.start c hc.placed.starts) fun head d _ hhead => hgo head d hhead

theorem chain (h : FormingRules src dialect rules) :
    Yields src dialect .firm Usual (chain rules) := by
  refine .starting fun a => .look (.atWord _) fun _ => .ite ?_ ?_
  · exact .bind (h .construction a) (Grows.chainFrom h true)
  · exact .bind (primary h a) (Grows.chainFrom h true)

end Yields

end SceneSync.Script
