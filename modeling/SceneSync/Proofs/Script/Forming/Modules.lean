import Mathlib
import SceneSync.Proofs.Script.Forming.Statements
import SceneSync.Script.Parse

/-!
# Forming imports, exports and whole sources

With the rules for modules every rule of the grammar gives formed trees, if the goals that
it opens do. By induction on the depth of the goals the tree of a source is formed.
-/

namespace SceneSync.Script

open Script.Parser Script.Tree Grammar

variable {src : List Char} {dialect : Dialect} {rules : Rules} {r : Reach} {t : Tree}
  {ts us : List Tree} {k : Kind} {a : Nat} {c : Cursor}

/-! ## Names of modules -/

/-- A name or a text that names something. -/
structure NameToken (t : Tree) : Prop extends Usual t where
  leaf : t.children = []
  notThis : t.kind ≠ .thisExpression

/-- A part of an export that tells nothing of what is exported. -/
structure Undeclared (t : Tree) : Prop where
  notDeclaration : t.role ≠ .declaration
  notValue : t.role ≠ .value

theorem Usual.undeclared (h : Usual t) : Undeclared t :=
  ⟨by simp [h.role], by simp [h.role]⟩

theorem Yields.moduleName : Yields src dialect .firm NameToken moduleName := by
  refine fun a => .token fun x => ?_
  split
  · exact (Leads.leaf (k := .string) rfl rfl).mono fun _ _ ht => ht.mono fun ht =>
      ⟨ht.toUsual, ht.leaf, by simp [ht.kind_eq]⟩
  · exact .forget ((Yields.anyName (k := .identifier) rfl).mono
      (fun _ ht => ⟨ht.toUsual, ht.leaf, by simp [ht.kind_eq]⟩) a)

theorem Lists.importAttributes (h : FormingRules src dialect rules) :
    Lists src dialect .firm .firm Usual (importAttributes rules) := by
  refine fun a ts => .look (.atWord _) fun _ => .look (.atWord _) fun _ => .look .onNewLine fun _ => ?_
  refine .ite (.skip (.child (.objectLiteral h) fun t ht => ?_)) ?_
  · exact .results (by simp) (by simpa using ht)
  · exact .results (by simp) (by simp)

theorem Lists.fromClause (h : FormingRules src dialect rules) :
    Lists src dialect r .firm Undeclared (fromClause rules) := by
  refine fun a ts => .take (.expectWord _) fun _ => .child .stringLiteral fun s _ => ?_
  refine .children (.importAttributes h) fun w hw => .results (by simp) fun u hu => ?_
  rcases List.mem_cons.mp hu with rfl | hu
  · exact ⟨by simp, by simp⟩
  · exact (hw u hu).undeclared

/-- The word `type` is taken or left by the token behind it. -/
theorem Moves.ofType {f : Token × Bool → Parser Unit}
    (hf : ∀ next c, c.Placed src dialect → c.token.isReal = true →
      ReadsAt src c (fun _ d => d.Placed src dialect ∧ (d = c ∨ Begun src c.start d.previous))
        (f next)) :
    Moves src dialect (do
      if (← isTyped) && (← atWord "type") then
        f (← ahead)) := by
  intro c hc
  refine .lookAt .isTyped fun _ => .look (g := fun c => c.token == .name "type") (.ite ?_ ?_)
  · exact fun htype => .lookAt .ahead fun next =>
      hf next c hc (isReal_of_beq (Bool.and_elim_right htype) rfl)
  · exact fun _ => Moves.pure () c hc

theorem Moves.typeMark : Moves src dialect typeMark :=
  .ofType fun next c hc hreal => by
    split
    · exact hc.takes hreal
    · exact .ite (fun _ => hc.takes hreal) fun _ => Moves.pure () c hc
    · exact Moves.pure () c hc

theorem Yields.specifier : Yields src dialect .firm Usual specifier := by
  refine .start fun a => .move .typeMark fun _ => .child .moduleName fun n hn => ?_
  refine .move (.acceptWord _) fun _ => .maybeAs .moduleName fun other hother => ?_
  refine .closeShaped nofun (by simp) (fun b _ c hc hname => ?_) fun _ => ⟨rfl, nofun⟩
  rcases List.mem_cons.mp hc with rfl | hc
  · exact ⟨by simpa using hn.leaf, by simpa using hn.notThis⟩
  · obtain ⟨t, -, rfl⟩ := hother c hc
    simp at hname

theorem Yields.nameList (hparts : ∀ a b ts, Parts src dialect k a b ts) :
    Yields src dialect .firm (fun t => t.role = .plain ∧ t.kind = k) (nameList k) := by
  refine .start fun a => .take (.expect _) fun _ => .children (.listUntil .specifier) fun ns _ => ?_
  exact .closeShaped nofun rfl (fun _ _ => hparts _ _ _) fun _ => ⟨rfl, rfl⟩

/-! ## Imports -/

theorem Lists.importAliasTail (h : FormingRules src dialect rules) :
    Lists src dialect r .firm Usual (importAliasTail rules) := by
  refine fun a ts => .take (.expect _) fun _ => .child (h .chain) fun e he => ?_
  exact .move .semicolon fun _ => .results (by simp) (by simpa using he)

theorem Moves.importTypeMark : Moves src dialect importTypeMark :=
  .ofType fun next c hc hreal => by
    split
    · exact .ite (fun _ => hc.takes hreal) fun _ => Moves.pure () c hc
    · exact .ite (fun _ => hc.takes hreal) fun _ => Moves.pure () c hc
    · exact Moves.pure () c hc

namespace Yields

theorem importedNames : Yields src dialect .firm Usual importedNames := by
  refine fun a => .at? fun _ => .ifSeen (.startAt fun a => .advance rfl ?_) ?_
  · refine .take (.expectWord _) fun _ => .child .identifier fun n _ => ?_
    exact .close rfl (by simp)
  · exact (nameList (k := .importBinding) fun _ _ _ => trivial).mono
      (fun _ ht => ⟨ht.1, by simp [ht.2]⟩) a

theorem importStatement (h : FormingRules src dialect rules) :
    Yields src dialect .firm Usual (importStatement rules) := by
  refine .start fun a => .take (.expectWord _) fun _ => .token fun x => ?_
  split
  · refine .forget (.child .stringLiteral fun s _ => .children (.importAttributes h) fun w _ => ?_)
    exact .move .semicolon fun _ => .close rfl (by simp)
  · refine .forget (.move .importTypeMark fun _ => .look .token fun _ => .ite ?_ ?_)
    · refine .child .identifier fun n _ => .look .isTyped fun _ => .look (.at? _) fun _ => ?_
      refine .ite (.children (.importAliasTail h) fun t _ => .close rfl (by simp)) ?_
      refine .move (.accept _) fun _ => .maybe importedNames fun ns _ => ?_
      refine .children (.fromClause h) fun f _ => .move .semicolon fun _ => ?_
      exact .close rfl (by simp)
    · refine .child importedNames fun ns _ => .children (.fromClause h) fun f _ => ?_
      exact .move .semicolon fun _ => .close rfl (by simp)

/-! ## Exports -/

/-- What is exported is no list of names. -/
theorem exportable (h : FormingRules src dialect rules) :
    Yields src dialect .loose (fun t => t.kind ≠ .exportClause) (exportable rules) := by
  refine fun a => .first (h .statement) fun d _ => .look (.guardThat _) fun _ => .resultAs ?_
  exact fun hd => by simpa using hd.kind

theorem defaultExport (h : FormingRules src dialect rules) :
    Yields src dialect .loose (fun t => t.kind ≠ .exportClause) (defaultExport rules) := by
  refine fun a => .attempt (exportable h a) (fun t => .result id) ?_
  refine .first (r := .loose) (Yields.loosen (h (.assignment .usual))) fun e _ => ?_
  exact .pass .semicolon fun _ => .resultAs fun he => by simpa using he.kind

end Yields

theorem Lists.exportedNames (h : FormingRules src dialect rules) :
    Lists src dialect r .firm Undeclared (exportedNames rules) := by
  refine fun a ts => .move (.accept _) fun _ => .ite ?_ ?_
  · refine .move (.acceptWord _) fun _ => .maybe Yields.moduleName.loosen fun n hn => ?_
    refine .children (.fromClause h) fun f hf => .move .semicolon fun _ => .results (by simp) ?_
    exact List.forall_mem_append.mpr ⟨fun u hu => (hn u hu).undeclared, hf⟩
  · refine .child (.nameList (k := .exportClause) fun _ _ _ => trivial) fun c hc => ?_
    refine .look (.atWord _) fun _ => ?_
    extract_lets go
    have hgo (f : List Tree) (hf : ∀ u ∈ f, Undeclared u) :
        Leads src (Laid src dialect a .firm (ts ++ [c] ++ f))
          (fun us d => Laid src dialect a .firm (ts ++ us) d ∧ ∀ u ∈ us, Undeclared u) (go f) := by
      refine .move .semicolon fun _ => .results (by simp) (List.forall_mem_cons.mpr ⟨?_, hf⟩)
      exact ⟨by simp [hc.1], by simp [hc.1]⟩
    exact .ite (.children (.fromClause h) hgo) (by simpa using hgo [] (by simp))

theorem Yields.exportStatement (h : FormingRules src dialect rules) :
    Yields src dialect .loose (fun e => Usual e ∧ e.kind = .exportStatement)
      (exportStatement rules) := by
  refine .start fun a => .take (.expectWord _) fun _ => .look .isTyped fun typed => ?_
  refine .look .ahead fun next => .token fun x => ?_
  extract_lets go
  have hgo (parts : List Tree)
      (hparts : (∀ c ∈ parts, c.kind ≠ .exportClause) ∨ ∀ c ∈ parts, Undeclared c) :
      Leads src (Laid src dialect a .loose parts) (Whole src dialect a .loose
        fun e => Usual e ∧ e.kind = .exportStatement) (go parts) := by
    refine .closeShaped nofun rfl (fun b _ c hc hclause d hd => ?_) fun _ => ⟨⟨rfl, nofun⟩, rfl⟩
    rcases hparts with hparts | hparts
    · exact absurd hclause (hparts c hc)
    · exact ⟨(hparts d hd).notDeclaration, (hparts d hd).notValue⟩
  have hone (d : Tree) (hd : d.kind ≠ .exportClause) := hgo [d] (.inl (by simpa using hd))
  have hexportable {r : Reach} : Leads src (Laid src dialect a r []) (Whole src dialect a .loose
      fun e => Usual e ∧ e.kind = .exportStatement) (do
        let d ← Grammar.exportable rules
        go [d]) :=
    .child (exportable h) fun d hd => hone d hd
  have hnames {r : Reach} : Leads src (Laid src dialect a r []) (Whole src dialect a .loose
      fun e => Usual e ∧ e.kind = .exportStatement) (Grammar.exportedNames rules >>= go) :=
    .children (.exportedNames h) fun us hus => .weaken (hgo us (.inr hus))
  split
  · refine .look (.guardThat _) fun _ => .forget (.skip (.child (h (.expression false)) ?_))
    exact fun e he => .move .semicolon fun _ => .weaken (hone e he.kind)
  · exact .forget hexportable
  · exact .forget hnames
  · refine .forget (.ite (.skip ?_) (.ite (.skip ?_) (.ite (.skip hnames) hexportable)))
    · exact .child (defaultExport h) fun d hd => hone d hd
    · refine .take (.expectWord _) fun _ => .child .identifier fun n hn => .move .semicolon ?_
      exact fun _ => .weaken (hone n hn.kind)
  · exact .failed

/-! ## Whole sources -/

namespace Yields

theorem anyStatement (h : FormingRules src dialect rules) :
    Yields src dialect .loose Usual (anyStatement rules) := by
  refine .look .token fun x => ?_
  split
  · exact Yields.loosen (h .block)
  · exact emptyStatement.loosen
  · exact decorated h (exportStatement h)
  · exact (exportStatement h).mono fun _ he => he.1
  · refine .look .ahead fun next => ?_
    exact .ite (expressionStatement h).loosen (importStatement h).loosen
  · exact wordStatement h _
  · exact (expressionStatement h).loosen

end Yields

theorem FormingRules.reading (h : FormingRules src dialect rules) :
    FormingRules src dialect (reading rules) := by
  intro goal
  cases goal with
  | statement => exact .anyStatement h
  | block => exact .block h
  | expression noIn => exact .sequence h noIn
  | assignment mode => exact .assignmentExpression h mode
  | operation level noIn => exact .operation h level noIn
  | unary => exact .unary h
  | chain => exact .chain h
  | construction => exact .construction h
  | pattern => exact .pattern h
  | type => exact .type h
  | plainType => exact .unionType h
  | typeOperand => exact .typeOperand h
  | markup => exact .markupElement h

theorem formingRules_rulesTo (depth : Nat) : FormingRules src dialect (rulesTo depth) := by
  induction depth with
  | zero =>
    intro goal
    cases goal <;> exact fun _ => .failure
  | succ depth ih => exact ih.reading

/-- The root is formed, and each statement has characters and starts with no blank. -/
theorem Leads.program : Leads src (Cursor.Placed src dialect)
    (fun t _ => Formed src dialect t ∧ ∀ s ∈ t.children, Begun src s.start s.stop) program := by
  intro c hc
  refine .look ?_
  extract_lets go
  have hgo (u : Unit) (c : Cursor) (hc : c.Placed src dialect) : ReadsAt src c
      (fun t _ => Formed src dialect t ∧ ∀ s ∈ t.children, Begun src s.start s.stop) (go u) := by
    have hstatement (depth : Nat) : Yields src dialect .fresh (fun s => Begun src s.start s.stop)
        (rulesTo depth .statement) :=
      fun a => (formingRules_rulesTo depth .statement a).mono fun s d hs =>
        ⟨hs.placed, hs.start, hs.formed, hs.begun, hs.stop, hs.start.symm ▸ hs.begun⟩
    have hstep (depth : Nat) :
        Steps src dialect .fresh (fun s => Begun src s.start s.stop) (fun s => [s]) (do
          if (← Parser.token) == .done then return none
          return some (← rulesTo depth .statement)) :=
      fun _ _ => .look .token fun _ => .ite Steps.ends
        (.child (hstatement depth) fun _ hs => Steps.one hs)
    refine .look (g := id) (.bind (Lists.repeated (hstep _) c.start [] c hc.starts.laid) ?_)
    refine fun ss d _ ⟨hd, hss⟩ => .look (.pure hd.placed.within ⟨formed_node.mpr ?_, hss⟩)
    exact ⟨hd.ordered.mono_start (Nat.zero_le _),
      ⟨Text.boundary_zero src, hd.placed.start, trivial⟩, hd.formed⟩
  exact .ite (fun _ => .advance (hgo () _ hc.advance)) fun _ => hgo () c hc

theorem formed_of_parse (h : parse? dialect src = some t) :
    Formed src dialect t ∧ ∀ s ∈ t.children, Begun src s.start s.stop := by
  have hstart : (Cursor.ofText dialect src).Placed src dialect :=
    Cursor.placed_read _ (Remains.leaves ⟨[], rfl, rfl⟩)
  unfold parse? at h
  split at h
  · rename_i hrun
    obtain ⟨-, hformed⟩ := Leads.program _ hstart _ _ hrun
    split at h
    · cases h
    · cases h
      exact hformed
  · cases h

end SceneSync.Script
