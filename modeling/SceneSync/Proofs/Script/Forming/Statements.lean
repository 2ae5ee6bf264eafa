import Mathlib
import SceneSync.Proofs.Script.Forming.Expressions
import SceneSync.Script.Grammar.Statement

/-!
# Forming statements

The rules for statements give formed trees, if the goals that they open do. A statement may
reach beyond the token before the cursor, over the comments of its line.
-/

namespace SceneSync.Script

open Script.Parser Script.Tree Grammar

variable {src : List Char} {dialect : Dialect} {rules : Rules} {r : Reach} {t : Tree}
  {ts us : List Tree} {k : Kind} {a : Nat} {c : Cursor}

theorem ReadsAt.and {α : Type} {R R' : α → Cursor → Prop} {p : Parser α} (h : ReadsAt src c R p)
    (h' : ReadsAt src c R' p) : ReadsAt src c (fun x d => R x d ∧ R' x d) p :=
  fun x d hrun => ⟨(h x d hrun).1, (h x d hrun).2, (h' x d hrun).2⟩

namespace Yields

/-! ## Blocks and branches -/

theorem block (h : FormingRules src dialect rules) :
    Yields src dialect .firm Usual (block rules) := by
  refine .start fun a => .take (.expect _) fun _ => .weaken (r := .loose) ?_
  refine .children (.untilAt (h .statement)) fun ss _ => .take (.expect _) fun _ => ?_
  exact .close rfl (by simp)

theorem condition (h : FormingRules src dialect rules) :
    Yields src dialect .firm Usual (condition rules) := by
  refine .start fun a => .take (.expect _) fun _ => .child (h (.expression false)) fun e _ => ?_
  exact .take (.expect _) fun _ => .close rfl (by simp)

theorem ifStatement (h : FormingRules src dialect rules) :
    Yields src dialect .loose Usual (ifStatement rules) := by
  refine .start fun a => .take (.expectWord _) fun _ => .child (condition h) fun c _ => ?_
  refine .child (h .statement) fun x _ => .move (.acceptWord _) fun _ => ?_
  exact .maybe (h .statement) fun y _ => .closeLoose rfl (by simp)

theorem whileStatement (h : FormingRules src dialect rules) :
    Yields src dialect .loose Usual (whileStatement rules) := by
  refine .start fun a => .take (.expectWord _) fun _ => .child (condition h) fun c _ => ?_
  exact .child (h .statement) fun s _ => .closeLoose rfl (by simp)

theorem doStatement (h : FormingRules src dialect rules) :
    Yields src dialect .firm Usual (doStatement rules) := by
  refine .start fun a => .take (.expectWord _) fun _ => .child (h .statement) fun s _ => ?_
  refine .take (.expectWord _) fun _ => .child (condition h) fun c _ => ?_
  exact .move (.accept _) fun _ => .close rfl (by simp)

theorem withStatement (h : FormingRules src dialect rules) :
    Yields src dialect .loose Usual (withStatement rules) := by
  refine .start fun a => .take (.expectWord _) fun _ => .child (condition h) fun c _ => ?_
  exact .child (h .statement) fun s _ => .closeLoose rfl (by simp)

end Yields

/-! ## Loops over clauses and values -/

namespace Leads

theorem forTail (h : FormingRules src dialect rules) :
    Leads src (Laid src dialect a .firm ts) (Whole src dialect a .loose Usual)
      (forTail rules a ts) := by
  have hclause {β : Type} {S : β → Cursor → Prop} {f : List Tree → Parser β} {b : Bool}
      {ts : List Tree} (hf : ∀ us, Leads src (Laid src dialect a .firm (ts ++ us)) S (f us)) :
      Leads src (Laid src dialect a .firm ts) S (if b = true then (do let us ← Pure.pure []; f us)
        else do let e ← Grammar.expression rules; let us ← Pure.pure [e]; f us) :=
    .ite (by simpa using hf []) (.child (h (.expression false)) fun e _ => hf [e])
  refine .take (.expect _) fun _ => .look (.at? _) fun _ => hclause fun c => ?_
  refine .take (.expect _) fun _ => .look (.at? _) fun _ => hclause fun u => ?_
  refine .take (.expect _) fun _ => .child (h .statement) fun s _ => ?_
  exact .closeLoose rfl (by simp)

theorem forInTail (h : FormingRules src dialect rules) (hsame : ts.map Tree.bare = us.map Tree.bare) :
    Leads src (Laid src dialect a .firm us) (Whole src dialect a .loose Usual)
      (forInTail rules a ts) := by
  refine .move (.acceptWord _) fun _ => ?_
  extract_lets go
  have hgo (u : Unit) : Leads src (Laid src dialect a .firm us) (Whole src dialect a .loose Usual)
      (go u) := by
    refine .child (h (.expression false)) fun r _ => .take (.expect _) fun _ => ?_
    exact .child (h .statement) fun s _ => .closeLoose rfl (by simp [hsame])
  exact .ite (.take (.expectWord _) hgo) (hgo ())

end Leads

theorem Looks.atForIn : Looks atForIn :=
  .bind (.atWord _) fun _ => .bind (.atWord _) fun _ => .pure _

theorem Leads.forVariables (h : FormingRules src dialect rules) :
    Leads src (Laid src dialect a .firm []) (Whole src dialect a .loose Usual)
      (forVariables rules a) := by
  intro c hc
  refine .look (.look ?_)
  split
  · rename_i w hword
    -- the variables are laid out from the word on, and their first declarator from behind it
    have hpast := hc.placed.past (by rw [hword]; rfl)
    have hloop := hc.take hc.placed.advance hpast
    have hvariables := hc.placed.starts.laid.take hc.placed.advance hpast
    have hfirst := hc.placed.advance.starts.laid
    refine .advance (.look (.bind ((Lists.declaratorHead h _ [] _ hfirst).and
      (Lists.declaratorHead h a [] _ hloop)) fun head d _ ⟨⟨hhead, _⟩, hloophead, _⟩ => ?_))
    refine .lookAt .atForIn fun _ => .ite (fun _ => Leads.forInTail h rfl d hloophead) fun _ => ?_
    refine .bind (Leads.declaratorFrom h true d hhead) fun t e _ ht => ?_
    refine .lookAt .atForIn fun _ => .ite (fun _ => Leads.forInTail h rfl e (hloop.add ht)) ?_
    intro _
    extract_lets go
    have hgo (ds : List Tree) : Leads src (Laid src dialect c.start .firm ([t] ++ ds))
        (Whole src dialect a .loose Usual) (go ds) := by
      have hclose : Leads src (Laid src dialect c.start .firm ([t] ++ ds))
          (Whole src dialect c.start .firm Usual) (Parser.close (variableKind w) c.start (t :: ds)) :=
        .close (isFree_variableKind _) (by simp)
      exact fun d hd => .bind (hclose d hd) fun v e _ hv => Leads.forTail h e (hc.add hv)
    exact Leads.move (.accept _) (fun _ => .ite (.children (.commaList (.declarator h true))
      fun ds _ => hgo ds) (hgo [])) e (hvariables.add ht)
  · nofun

namespace Yields

theorem forStatement (h : FormingRules src dialect rules) :
    Yields src dialect .loose Usual (forStatement rules) := by
  refine .start fun a => .take (.expectWord _) fun _ => .move (.acceptWord _) fun _ => ?_
  refine .take (.expect _) fun _ => .look (.at? _) fun _ => .ite (.forTail h) ?_
  refine .look .atVariables fun _ => .ite (.forVariables h) ?_
  refine .child (h (.expression true)) fun e _ => .look .atForIn fun _ => .ite ?_ (.forTail h)
  split
  · exact .failure
  · rename_i p hp
    exact fun c hc => Leads.forInTail h (by simp) c (hc.toPattern hp)

/-! ## Statements with clauses -/

theorem switchCase (h : FormingRules src dialect rules) :
    Yields src dialect .loose Usual (switchCase rules) := by
  refine .start fun a => .move (.acceptWord _) fun _ => ?_
  extract_lets go
  have hstep : Steps src dialect .loose Usual (fun t => [t]) (do
      if (← Parser.at? "\x7d") || (← Parser.atWord "case") || (← Parser.atWord "default") then
        return none
      return some (← Grammar.statement rules)) :=
    fun _ _ => .look (.at? _) fun _ => .look (.atWord _) fun _ => .look (.atWord _) fun _ =>
      .ite Steps.ends (.child (h .statement) fun _ hs => Steps.one hs)
  have hgo {r : Reach} (test : List Tree) : Leads src (Laid src dialect a r test)
      (Whole src dialect a .loose Usual) (go test) := by
    refine .take (.expect _) fun _ => .weaken (r := .loose) ?_
    exact .children (.repeated hstep) fun ss _ => .closeLoose rfl (by simp)
  refine .ite (hgo []) (.take (.expectWord _) fun _ => ?_)
  exact .child (h (.expression false)) fun e _ => hgo [e]

theorem switchStatement (h : FormingRules src dialect rules) :
    Yields src dialect .firm Usual (switchStatement rules) := by
  refine .start fun a => .take (.expectWord _) fun _ => .child (condition h) fun c _ => ?_
  refine .take (.expect _) fun _ => .weaken (r := .loose) ?_
  refine .children (.untilAt (switchCase h)) fun cs _ => .take (.expect _) fun _ => ?_
  exact .close rfl (by simp)

theorem catchClause (h : FormingRules src dialect rules) :
    Yields src dialect .firm Usual (catchClause rules) := by
  refine .start fun a => .take (.expectWord _) fun _ => .move (.accept _) fun _ => ?_
  extract_lets go
  have hgo (p : List Tree) : Leads src (Laid src dialect a .firm p)
      (Whole src dialect a .firm Usual) (go p) :=
    .child (h .block) fun b _ => .close rfl (by simp)
  refine .ite (.child (h .pattern) fun p _ => ?_) (hgo [])
  exact .children (.optionalDeclaredType h) fun t _ => .take (.expect _) fun _ => hgo (p :: t)

theorem finallyClause (h : FormingRules src dialect rules) :
    Yields src dialect .firm Usual (finallyClause rules) := by
  refine .start fun a => .take (.expectWord _) fun _ => .child (h .block) fun b _ => ?_
  exact .close rfl (by simp)

theorem tryStatement (h : FormingRules src dialect rules) :
    Yields src dialect .firm Usual (tryStatement rules) := by
  refine .start fun a => .take (.expectWord _) fun _ => .child (h .block) fun b _ => ?_
  refine .look (.atWord _) fun _ => .maybe (catchClause h) fun c _ => ?_
  refine .look (.atWord _) fun _ => .maybe (finallyClause h) fun f _ => ?_
  exact .look (.guardThat _) fun _ => .close rfl (by simp)

/-! ## Statements of one word -/

theorem returnStatement (h : FormingRules src dialect rules) :
    Yields src dialect .firm Usual (returnStatement rules) := by
  refine .start fun a => .take (.expectWord _) fun _ => .look (.at? _) fun _ => ?_
  refine .look (.at? _) fun _ => .look .onNewLine fun _ => .look .token fun _ => ?_
  extract_lets bare go
  have hgo (e : List Tree) : Leads src (Laid src dialect a .firm e)
      (Whole src dialect a .firm Usual) (go e) :=
    .move .semicolon fun _ => .close rfl (by simp)
  exact .ite (hgo []) (.child (h (.expression false)) fun e _ => hgo [e])

theorem throwStatement (h : FormingRules src dialect rules) :
    Yields src dialect .firm Usual (throwStatement rules) := by
  refine .start fun a => .take (.expectWord _) fun _ => .child (h (.expression false)) fun e _ => ?_
  exact .move .semicolon fun _ => .close rfl (by simp)

theorem jumpStatement (w : String) (hk : isFree k = true) :
    Yields src dialect .firm Usual (jumpStatement w k) := by
  refine .start fun a => .take (.expectWord _) fun _ => .look .token fun _ => ?_
  refine .look .onNewLine fun _ => .maybe .identifier fun l _ => .move .semicolon fun _ => ?_
  exact .close hk (by simp)

theorem debuggerStatement : Yields src dialect .firm Usual debuggerStatement :=
  .start fun _ => .take (.expectWord _) fun _ => .move .semicolon fun _ => .close rfl (by simp)

theorem emptyStatement : Yields src dialect .firm Usual emptyStatement :=
  .start fun _ => .take (.expect _) fun _ => .close rfl (by simp)

theorem labeledStatement (h : FormingRules src dialect rules) :
    Yields src dialect .loose Usual (labeledStatement rules) := by
  refine .start fun a => .child .identifier fun l _ => .take (.expect _) fun _ => ?_
  exact .child (h .statement) fun s _ => .closeLoose rfl (by simp)

theorem expressionStatement (h : FormingRules src dialect rules) :
    Yields src dialect .firm Usual (expressionStatement rules) := by
  refine .start fun a => .child (h (.expression false)) fun e _ => .move .semicolon fun _ => ?_
  exact .close rfl (by simp)

/-- Decorators in front of an export become parts of it. -/
theorem decorated (h : FormingRules src dialect rules) {p : Parser Tree}
    (hp : Yields src dialect .loose (fun e => Usual e ∧ e.kind = .exportStatement) p) :
    Yields src dialect .loose Usual (decorated rules p) := by
  rintro _ c ⟨hc, rfl⟩
  refine .look (g := id) (.bind (Lists.decorators h c.start [] c hc.starts.laid) ?_)
  intro ds d _ ⟨hd, hds⟩
  refine .lookAt (.atWord _) fun _ => .ite (fun _ => ?_) fun _ =>
    .set ((classDeclaration h).loosen c.start c hc.starts)
  refine .bind (hp d.start d hd.placed.starts) fun e f _ he => .pure he.placed.within ?_
  have hbegun := (hd.add he).begun_of_ne nofun
  obtain ⟨ρ, k, x, y, es⟩ := e
  obtain rfl : x = d.start := he.start
  obtain rfl : k = .exportStatement := he.property.2
  obtain ⟨hordered, hshape, hformed⟩ := formed_node.mp he.formed
  have hstart : c.start ≤ d.start := hd.ordered.start_le_stop
  have hparts : Parts src dialect .exportStatement c.start y (ds ++ es) := by
    intro u hu hkind v hv
    rcases List.mem_append.mp hu with hu | hu
    · exact absurd hkind (hds u hu).kind
    rcases List.mem_append.mp hv with hv | hv
    · simp [(hds v hv).role]
    · exact hshape.parts u hu hkind v hv
  refine ⟨he.placed, rfl, formed_node.mpr ⟨hd.ordered.concat hordered, ?_, ?_⟩, ?_, he.stop, ?_⟩
  · exact ⟨hc.start, hshape.stop, hparts⟩
  · exact List.forall_mem_append.mpr ⟨hd.formed, hformed⟩
  · exact ⟨hbegun.solid, hstart.trans_lt he.begun.lt⟩
  · exact ⟨rfl, nofun⟩

theorem wordStatement (h : FormingRules src dialect rules) (w : String) :
    Yields src dialect .loose Usual (wordStatement rules w) := by
  refine .look .atTypedDeclaration fun _ => .ite (typedDeclaration h) ?_
  refine .look .atVariables fun _ => .ite (variableStatement h).loosen ?_
  refine .look .atFunction fun _ => .ite (functionDeclaration h) ?_
  split
  · exact (classDeclaration h).loosen
  · exact ifStatement h
  · exact forStatement h
  · exact whileStatement h
  · exact (doStatement h).loosen
  · exact (switchStatement h).loosen
  · exact (tryStatement h).loosen
  · exact (returnStatement h).loosen
  · exact (throwStatement h).loosen
  · exact (jumpStatement (k := .breakStatement) _ rfl).loosen
  · exact (jumpStatement (k := .continueStatement) _ rfl).loosen
  · exact withStatement h
  · exact debuggerStatement.loosen
  · exact .look .ahead fun _ => .ite (labeledStatement h) (expressionStatement h).loosen

end Yields

end SceneSync.Script
