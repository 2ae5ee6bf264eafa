import Mathlib
import SceneSync.Proofs.Script.Reading.Expressions
import SceneSync.Script.Source

/-!
# Reading statements and whole sources

With the rules for statements every rule of the grammar gives sound trees, if the goals
that it opens do. By induction on the depth of the goals the tree of a source is sound.
-/

namespace SceneSync.Script

open Script.Parser Grammar

variable {src : List Char} {rules : Rules} {a : Nat}

namespace Reads

/-! ## Statements -/

theorem block (h : SoundRules src rules) : Reads src (Sound src) (block rules) := by
  refine .after .start fun a => .after (.expect _) fun _ => ?_
  exact .bind (.untilAt (h.sound _)) fun ss hss => .after (.expect _) fun _ => .close nofun hss

theorem condition (h : SoundRules src rules) : Reads src (Sound src) (condition rules) := by
  refine .after .start fun a => .after (.expect _) fun _ => .bind (h.sound _) fun e he => ?_
  exact .after (.expect _) fun _ => .close nofun (by simp [he])

theorem ifStatement (h : SoundRules src rules) : Reads src (Sound src) (ifStatement rules) := by
  refine .after .start fun a => .after (.expectWord _) fun _ => .bind (.condition h) fun c hc => ?_
  refine .bind (h.sound _) fun x hx => .after (.acceptWord _) fun _ => ?_
  exact .maybe (h.sound _) fun y hy => .close nofun (by simp [hc, hx, hy])

theorem whileStatement (h : SoundRules src rules) :
    Reads src (Sound src) (whileStatement rules) := by
  refine .after .start fun a => .after (.expectWord _) fun _ => .bind (.condition h) fun c hc => ?_
  exact .bind (h.sound _) fun s hs => .close nofun (by simp [hc, hs])

theorem doStatement (h : SoundRules src rules) : Reads src (Sound src) (doStatement rules) := by
  refine .after .start fun a => .after (.expectWord _) fun _ => .bind (h.sound _) fun s hs => ?_
  refine .after (.expectWord _) fun _ => .bind (.condition h) fun c hc => ?_
  exact .after (.accept _) fun _ => .close nofun (by simp [hs, hc])

theorem withStatement (h : SoundRules src rules) : Reads src (Sound src) (withStatement rules) := by
  refine .after .start fun a => .after (.expectWord _) fun _ => .bind (.condition h) fun c hc => ?_
  exact .bind (h.sound _) fun s hs => .close nofun (by simp [hc, hs])

theorem forTail (h : SoundRules src rules) {first : List Tree} (hfirst : AllSound src first) :
    Reads src (Sound src) (forTail rules a first) := by
  have hclause {β : Type} {Q : β → Prop} {f : List Tree → Parser β} {b : Bool}
      (hf : ∀ ts, AllSound src ts → Reads src Q (f ts)) :
      Reads src Q (if b = true then (do let ts ← Pure.pure []; f ts)
        else do let e ← Grammar.expression rules; let ts ← Pure.pure [e]; f ts) :=
    .ite (hf [] allSound_nil) (.bind (h.sound _) fun e he => hf [e] (by simp [he]))
  refine .after (.expect _) fun _ => .after (.at? _) fun _ => hclause fun c hc => ?_
  refine .after (.expect _) fun _ => .after (.at? _) fun _ => hclause fun u hu => ?_
  refine .after (.expect _) fun _ => .bind (h.sound _) fun s hs => ?_
  exact .close nofun (by simp [hfirst, hc, hu, hs])

theorem forInTail (h : SoundRules src rules) {left : List Tree} (hleft : AllSound src left) :
    Reads src (Sound src) (forInTail rules a left) := by
  refine .after (.acceptWord _) fun _ => ?_
  extract_lets go
  have hgo (u : Unit) : Reads src (Sound src) (go u) := by
    refine .bind (h.sound _) fun r hr => .after (.expect _) fun _ => ?_
    exact .bind (h.sound _) fun s hs => .close nofun (by simp [hleft, hr, hs])
  exact .ite (.after (.expectWord _) hgo) (hgo ())

theorem atForIn : Reads src (fun _ => True) atForIn :=
  .after (.atWord _) fun _ => .after (.atWord _) fun _ => .pure trivial

theorem forVariables (h : SoundRules src rules) : Reads src (Sound src) (forVariables rules a) := by
  refine .after .start fun b => .after .token fun token => ?_
  split
  · refine .after .advance fun _ => .after .start fun c => ?_
    refine .bind (.declaratorHead h) fun head hh => ?_
    refine .after .atForIn fun _ => .ite (.forInTail h hh) ?_
    refine .bind (.declaratorFrom h hh true) fun d hd => .after .atForIn fun _ => ?_
    refine .ite (.forInTail h (by simp [hd])) (.after (.accept _) fun _ => ?_)
    extract_lets go
    have hgo (ds : List Tree) (hds : AllSound src ds) : Reads src (Sound src) (go ds) :=
      .bind (.close (variableKind_ne _) (by simp [hd, hds])) fun v hv => .forTail h (by simp [hv])
    exact .ite (.bind (.commaList (.declarator h true)) hgo) (hgo [] allSound_nil)
  · exact .failure

theorem forStatement (h : SoundRules src rules) : Reads src (Sound src) (forStatement rules) := by
  refine .after .start fun a => .after (.expectWord _) fun _ => .after (.acceptWord _) fun _ => ?_
  refine .after (.expect _) fun _ => .after (.at? _) fun _ => .ite (.forTail h allSound_nil) ?_
  refine .after .atVariables fun _ => .ite (.forVariables h) (.bind (h.sound _) fun e he => ?_)
  refine .after .atForIn fun _ => .ite ?_ (.forTail h (by simp [he]))
  split
  · exact .failure
  · rename_i p hp
    exact .forInTail h (by simp [sound_toPattern hp he])

theorem switchCase (h : SoundRules src rules) : Reads src (Sound src) (switchCase rules) := by
  refine .after .start fun a => .after (.acceptWord _) fun _ => ?_
  extract_lets go
  have hgo (test : List Tree) (htest : AllSound src test) : Reads src (Sound src) (go test) := by
    refine .after (.expect _) fun _ => .bind (.repeated (P := Sound src) ?_) fun ss hss => ?_
    · refine .after (.at? _) fun _ => .after (.atWord _) fun _ => .after (.atWord _) fun _ => ?_
      refine .ite (.pure (by simp)) (.bind (h.sound _) fun s hs => .pure ?_)
      simpa using hs
    · exact .close nofun (by simp [htest, show AllSound src ss from hss])
  refine .ite (hgo [] allSound_nil) (.after (.expectWord _) fun _ => ?_)
  exact .bind (h.sound _) fun e he => hgo [e] (by simp [he])

theorem switchStatement (h : SoundRules src rules) :
    Reads src (Sound src) (switchStatement rules) := by
  refine .after .start fun a => .after (.expectWord _) fun _ => .bind (.condition h) fun c hc => ?_
  refine .after (.expect _) fun _ => .bind (.untilAt (.switchCase h)) fun cs hcs => ?_
  refine .after (.expect _) fun _ => .close nofun ?_
  simp [hc, show AllSound src cs from hcs]

theorem catchClause (h : SoundRules src rules) : Reads src (Sound src) (catchClause rules) := by
  refine .after .start fun a => .after (.expectWord _) fun _ => .after (.accept _) fun _ => ?_
  extract_lets go
  have hgo (p : List Tree) (hp : AllSound src p) : Reads src (Sound src) (go p) :=
    .bind (h.sound _) fun b hb => .close nofun (by simp [hp, hb])
  refine .ite (.bind (h.sound _) fun p hp => ?_) (hgo [] allSound_nil)
  refine .bind (.optionalDeclaredType h) fun t ht => .after (.expect _) fun _ => ?_
  exact hgo (p :: t) (by simp [hp, ht])

theorem finallyClause (h : SoundRules src rules) : Reads src (Sound src) (finallyClause rules) := by
  refine .after .start fun a => .after (.expectWord _) fun _ => .bind (h.sound _) fun b hb => ?_
  exact .close nofun (by simp [hb])

theorem tryStatement (h : SoundRules src rules) : Reads src (Sound src) (tryStatement rules) := by
  refine .after .start fun a => .after (.expectWord _) fun _ => .bind (h.sound _) fun b hb => ?_
  refine .after (.atWord _) fun _ => .maybe (.catchClause h) fun c hc => ?_
  refine .after (.atWord _) fun _ => .maybe (.finallyClause h) fun f hf => ?_
  exact .after (.guardThat _) fun _ => .close nofun (by simp [hb, hc, hf])

theorem returnStatement (h : SoundRules src rules) :
    Reads src (Sound src) (returnStatement rules) := by
  refine .after .start fun a => .after (.expectWord _) fun _ => .after (.at? _) fun _ => ?_
  refine .after (.at? _) fun _ => .after .onNewLine fun _ => .after .token fun _ => ?_
  extract_lets bare go
  have hgo (e : List Tree) (he : AllSound src e) : Reads src (Sound src) (go e) :=
    .after .semicolon fun _ => .close nofun he
  exact .ite (hgo [] allSound_nil) (.bind (h.sound _) fun e he => hgo [e] (by simp [he]))

theorem throwStatement (h : SoundRules src rules) :
    Reads src (Sound src) (throwStatement rules) := by
  refine .after .start fun a => .after (.expectWord _) fun _ => .bind (h.sound _) fun e he => ?_
  exact .after .semicolon fun _ => .close nofun (by simp [he])

theorem jumpStatement (w : String) {k : Kind} (hk : k ≠ .newExpression) :
    Reads src (Sound src) (jumpStatement w k) := by
  refine .after .start fun a => .after (.expectWord _) fun _ => .after .token fun _ => ?_
  refine .after .onNewLine fun _ => .maybe .identifier fun l hl => ?_
  exact .after .semicolon fun _ => .close hk hl

theorem debuggerStatement : Reads src (Sound src) debuggerStatement :=
  .after .start fun _ => .after (.expectWord _) fun _ => .after .semicolon fun _ =>
    .close nofun allSound_nil

theorem emptyStatement : Reads src (Sound src) emptyStatement :=
  .after .start fun _ => .after (.expect _) fun _ => .close nofun allSound_nil

theorem labeledStatement (h : SoundRules src rules) :
    Reads src (Sound src) (labeledStatement rules) := by
  refine .after .start fun a => .bind .identifier fun l hl => .after (.expect _) fun _ => ?_
  exact .bind (h.sound _) fun s hs => .close nofun (by simp [hl, hs])

theorem expressionStatement (h : SoundRules src rules) :
    Reads src (Sound src) (expressionStatement rules) := by
  refine .after .start fun a => .bind (h.sound _) fun e he => ?_
  exact .after .semicolon fun _ => .close nofun (by simp [he])

theorem decorated (h : SoundRules src rules) {p : Parser Tree}
    (hp : Reads src (fun e => Sound src e ∧ e.kind ≠ .newExpression) p) :
    Reads src (Sound src) (decorated rules p) := by
  refine .bind .here fun c hc => .bind (.decorators h) fun ds hds => .after (.atWord _) fun _ => ?_
  refine .ite (.bind hp fun e he => .pure ?_) (.after (.set hc) fun _ => .classDeclaration h)
  exact sound_of_children he.2 (by simp [hds, he.1.children])

theorem wordStatement (h : SoundRules src rules) (w : String) :
    Reads src (Sound src) (wordStatement rules w) := by
  refine .after .atTypedDeclaration fun _ => .ite (.typedDeclaration h) ?_
  refine .after .atVariables fun _ => .ite (.variableStatement h) ?_
  refine .after .atFunction fun _ => .ite (.functionDeclaration h) ?_
  split
  · exact .classDeclaration h
  · exact .ifStatement h
  · exact .forStatement h
  · exact .whileStatement h
  · exact .doStatement h
  · exact .switchStatement h
  · exact .tryStatement h
  · exact .returnStatement h
  · exact .throwStatement h
  · exact .jumpStatement _ nofun
  · exact .jumpStatement _ nofun
  · exact .withStatement h
  · exact .debuggerStatement
  · exact .after .ahead fun _ => .ite (.labeledStatement h) (.expressionStatement h)

/-! ## Imports and exports -/

theorem moduleName : Reads src (Sound src) moduleName := by
  refine .after .token fun token => ?_
  split
  · exact .leaf nofun
  · exact .anyName nofun

theorem importAttributes (h : SoundRules src rules) :
    Reads src (AllSound src) (importAttributes rules) := by
  refine .after (.atWord _) fun _ => .after (.atWord _) fun _ => .after .onNewLine fun _ => ?_
  refine .ite (.after .advance fun _ => ?_) (.pure allSound_nil)
  exact .bind (.objectLiteral h) fun t ht => .pure (by simp [ht.sound])

theorem fromClause (h : SoundRules src rules) : Reads src (AllSound src) (fromClause rules) := by
  refine .after (.expectWord _) fun _ => .bind .stringLiteral fun s hs => ?_
  exact .bind (.importAttributes h) fun w hw => .pure (by simp [hs, hw])

theorem typeMark : Reads src (fun _ => True) typeMark := by
  refine .after .isTyped fun _ => .after (.atWord _) fun _ => .ite ?_ (.pure trivial)
  refine .after .ahead fun next => ?_
  split
  · exact .advance
  · exact .ite .advance (.pure trivial)
  · exact .pure trivial

theorem specifier : Reads src (Sound src) specifier := by
  refine .after .start fun a => .after .typeMark fun _ => .bind .moduleName fun n hn => ?_
  refine .after (.acceptWord _) fun _ => .maybe_role .moduleName fun other hother => ?_
  exact .close nofun (by simp [hn, hother])

theorem nameList {k : Kind} (hk : k ≠ .newExpression) : Reads src (Sound src) (nameList k) := by
  refine .after .start fun a => .after (.expect _) fun _ => ?_
  exact .bind (.listUntil .specifier) fun ns hns => .close hk hns

theorem importAliasTail (h : SoundRules src rules) :
    Reads src (AllSound src) (importAliasTail rules) := by
  refine .after (.expect _) fun _ => .bind (h.sound _) fun e he => .after .semicolon fun _ => ?_
  exact .pure (by simp [he])

theorem importTypeMark : Reads src (fun _ => True) importTypeMark := by
  refine .after .isTyped fun _ => .after (.atWord _) fun _ => .ite ?_ (.pure trivial)
  refine .after .ahead fun next => ?_
  split
  · exact .ite .advance (.pure trivial)
  · exact .ite .advance (.pure trivial)
  · exact .pure trivial

theorem importedNames : Reads src (Sound src) importedNames := by
  refine .after (.at? _) fun _ => .ite ?_ (.nameList nofun)
  refine .after .start fun a => .after .advance fun _ => .after (.expectWord _) fun _ => ?_
  exact .bind .identifier fun n hn => .close nofun (by simp [hn])

theorem importStatement (h : SoundRules src rules) :
    Reads src (Sound src) (importStatement rules) := by
  refine .after .start fun a => .after (.expectWord _) fun _ => .after .token fun token => ?_
  split
  · refine .bind .stringLiteral fun s hs => .bind (.importAttributes h) fun w hw => ?_
    exact .after .semicolon fun _ => .close nofun (by simp [hs, hw])
  · refine .after .importTypeMark fun _ => .after .token fun _ => .ite ?_ ?_
    · refine .bind .identifier fun n hn => .after .isTyped fun _ => .after (.at? _) fun _ => ?_
      refine .ite (.bind (.importAliasTail h) fun t ht => .close nofun (by simp [hn, ht])) ?_
      refine .after (.accept _) fun _ => .maybe .importedNames fun ns hns => ?_
      refine .bind (.fromClause h) fun f hf => .after .semicolon fun _ => ?_
      exact .close nofun (by simp [hn, hns, hf])
    · refine .bind .importedNames fun ns hns => .bind (.fromClause h) fun f hf => ?_
      exact .after .semicolon fun _ => .close nofun (by simp [hns, hf])

theorem exportable (h : SoundRules src rules) : Reads src (Sound src) (exportable rules) :=
  .bind (h.sound _) fun d hd => .after (.guardThat _) fun _ => .pure (by simpa using hd)

theorem defaultExport (h : SoundRules src rules) : Reads src (Sound src) (defaultExport rules) := by
  refine .bind (.attempt (.exportable h)) fun o ho => ?_
  split
  · exact .pure (ho _ rfl)
  · refine .bind (h.sound _) fun e he => .after .semicolon fun _ => .pure ?_
    simpa using he

theorem exportedNames (h : SoundRules src rules) :
    Reads src (AllSound src) (exportedNames rules) := by
  refine .after (.accept _) fun _ => .ite ?_ ?_
  · refine .after (.acceptWord _) fun _ => .maybe .moduleName fun n hn => ?_
    refine .bind (.fromClause h) fun f hf => .after .semicolon fun _ => .pure (by simp [hn, hf])
  · refine .bind (.nameList nofun) fun c hc => .after (.atWord _) fun _ => ?_
    extract_lets go
    have hgo (f : List Tree) (hf : AllSound src f) : Reads src (AllSound src) (go f) :=
      .after .semicolon fun _ => .pure (by simp [hc, hf])
    exact .ite (.bind (.fromClause h) hgo) (hgo [] allSound_nil)

theorem exportStatement (h : SoundRules src rules) :
    Reads src (fun e => Sound src e ∧ e.kind ≠ .newExpression) (exportStatement rules) := by
  refine .after .start fun a => .after (.expectWord _) fun _ => .after .isTyped fun typed => ?_
  refine .after .ahead fun next => .after .token fun token => ?_
  extract_lets go
  have hgo (parts : List Tree) (hparts : AllSound src parts) :
      Reads src (fun e => Sound src e ∧ e.kind ≠ .newExpression) (go parts) :=
    .after (.looks _) fun _ => .pure ⟨sound_of_children nofun hparts, nofun⟩
  have hone {p : Parser Tree} (hp : Reads src (Sound src) p) :
      Reads src (fun e => Sound src e ∧ e.kind ≠ .newExpression) (do let t ← p; go [t]) :=
    .bind hp fun t ht => hgo [t] (by simp [ht])
  split
  · refine .after (.guardThat _) fun _ => .after .advance fun _ => .bind (h.sound _) fun e he => ?_
    exact .after .semicolon fun _ => hgo [e] (by simp [he])
  · exact hone (.exportable h)
  · exact .bind (.exportedNames h) hgo
  · refine .ite (.after .advance fun _ => hone (.defaultExport h)) (.ite ?_ (.ite ?_ ?_))
    · refine .after .advance fun _ => .after (.expectWord _) fun _ => ?_
      exact .bind .identifier fun n hn => .after .semicolon fun _ => hgo [n] (by simp [hn])
    · exact .after .advance fun _ => .bind (.exportedNames h) hgo
    · exact hone (.exportable h)
  · exact .failed

/-! ## Whole sources -/

theorem anyStatement (h : SoundRules src rules) : Reads src (Sound src) (anyStatement rules) := by
  refine .after .token fun token => ?_
  split
  · exact h.sound _
  · exact .emptyStatement
  · exact .decorated h (.exportStatement h)
  · exact (Reads.exportStatement h).mono fun _ he => he.1
  · refine .after .ahead fun next => ?_
    exact .ite (.expressionStatement h) (.importStatement h)
  · exact .wordStatement h _
  · exact .expressionStatement h

end Reads

theorem SoundRules.reading (h : SoundRules src rules) : SoundRules src (reading rules) where
  sound goal := by
    cases goal with
    | statement => exact .anyStatement h
    | block => exact .block h
    | expression noIn => exact .sequence h noIn
    | assignment mode => exact .assignmentExpression h mode
    | operation level noIn => exact .operation h level noIn
    | unary => exact .unary h
    | chain => exact .chain h
    | construction => exact (Reads.construction h).mono fun _ ht => ht.sound
    | pattern => exact .pattern h
    | type => exact .type h
    | plainType => exact .unionType h
    | typeOperand => exact .typeOperand h
    | markup => exact (Reads.markupElement h).mono fun _ ht => ht.sound
  construction := .construction h
  markup := .markupElement h

theorem soundRules_rulesTo (depth : Nat) : SoundRules src (rulesTo depth) := by
  induction depth with
  | zero => exact ⟨fun _ => .failure, .failure, .failure⟩
  | succ depth ih => exact ih.reading

theorem Reads.program : Reads src (Sound src) program := by
  refine .after .token fun token => ?_
  extract_lets go
  have hgo (u : Unit) : Reads src (Sound src) (go u) := by
    refine .bind .here fun c _ => .bind (.repeated (P := Sound src) ?_) fun ss hss => ?_
    · refine .after .token fun token => .ite (.pure (by simp)) ?_
      exact .bind ((soundRules_rulesTo _).sound _) fun s hs => .pure (by simpa using hs)
    · exact .bind .here fun d _ => .pure (sound_of_children nofun hss)
  exact .ite (.after .advance hgo) (hgo ())

theorem sound_of_parse {dialect : Dialect} {t : Tree} (h : parse? dialect src = some t) :
    Sound src t := by
  have hstart : (Cursor.ofText dialect src).In src := Cursor.in_read fun _ => ⟨[], rfl, rfl⟩
  unfold parse? at h
  split at h
  · rename_i hrun
    obtain ⟨-, hsound⟩ := Reads.program _ _ _ hstart hrun
    split at h
    · cases h
    · cases h
      exact hsound
  · cases h

/-- What a source constructs is spelled as its names, if it is a chain of them. -/
theorem sound_of_read {dialect : Dialect} {s : Script} (h : read dialect src = .ok s) :
    s.source = src ∧ Sound src s.tree := by
  rw [read] at h
  split at h
  · rename_i hparse
    cases h
    exact ⟨rfl, sound_of_parse hparse⟩
  · cases h

end SceneSync.Script
