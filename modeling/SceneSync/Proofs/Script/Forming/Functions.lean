import Mathlib
import SceneSync.Proofs.Script.Forming.Composites
import SceneSync.Script.Grammar.Class

/-!
# Forming functions and classes

The rules for functions and classes give formed trees, if the goals that they open do.
-/

namespace SceneSync.Script

open Script.Parser Grammar

variable {src : List Char} {dialect : Dialect} {rules : Rules} {r : Reach} {t : Tree}
  {ρ : Role} {k : Kind} {a : Nat}

/-! ## Parts of functions -/

theorem Usual.partOfFunction (h : Usual t) : PartOfFunction t :=
  ⟨fun hname => by simp [h.role] at hname, fun hparameters => by simp [h.role] at hparameters⟩

theorem partOfFunction_withRole (hname : ρ ≠ .name) (hparameters : ρ ≠ .parameters) :
    PartOfFunction (t.withRole ρ) :=
  ⟨fun h => absurd (role_withRole.symm.trans h) hname,
    fun h => absurd (role_withRole.symm.trans h) hparameters⟩

theorem IsToken.partOfFunction (h : IsToken .identifier t) : PartOfFunction (t.withRole .name) := by
  obtain ⟨r, k, a, b, ts⟩ := t
  obtain rfl : k = .identifier := h.kind_eq
  obtain rfl : ts = [] := h.leaf
  exact ⟨fun _ => ⟨rfl, nofun⟩, nofun⟩

theorem partOfFunction_parameters (h : t.kind = .formalParameters) :
    PartOfFunction (t.withRole .parameters) := by
  obtain ⟨r, k, a, b, ts⟩ := t
  exact ⟨nofun, fun _ => h⟩

/-! ## Functions -/

theorem Lists.signature (h : FormingRules src dialect rules) :
    Lists src dialect r .firm PartOfFunction (signature rules) := by
  refine fun a ts => .children (.optionalTypeParameters h) fun us hus => ?_
  refine .child (.formalParameters h) fun ps hps => .children (.optionalResult h) fun rs hrs => ?_
  refine .results (by simp) fun u hu => ?_
  simp only [List.mem_append, List.mem_cons] at hu
  rcases hu with hu | rfl | hu
  · exact (hus u hu).partOfFunction
  · exact partOfFunction_parameters hps.2
  · exact (hrs u hu).partOfFunction

theorem Yields.functionBody (h : FormingRules src dialect rules) :
    Yields src dialect .firm PartOfFunction (functionBody rules) :=
  fun a => .bind (h .block a) fun _ => .resultAs fun _ => partOfFunction_withRole nofun nofun

theorem Moves.optionalAsync : Moves src dialect optionalAsync :=
  .look (.atWord _) fun _ => .look .ahead fun _ => .ite (.acceptWord _) (.pure _)

namespace Yields

theorem functionDeclaration (h : FormingRules src dialect rules) :
    Yields src dialect .loose Usual (functionDeclaration rules) := by
  refine .start fun a => .move .optionalAsync fun _ => .take (.expectWord _) fun _ => ?_
  refine .move (.accept _) fun generator => .child .identifier fun n hn => ?_
  refine .children (.signature h) fun s hs => ?_
  have hhead : ∀ c ∈ n.withRole .name :: s, PartOfFunction c :=
    List.forall_mem_cons.mpr ⟨hn.partOfFunction, hs⟩
  refine .look .isTyped fun _ => .look (.at? _) fun _ => .ite ?_ ?_
  · refine .look (.guardThat _) fun _ => ?_
    exact .closeStatement (by simp) (fun b hb => ⟨hb, hhead⟩) fun _ => ⟨rfl, nofun⟩
  · refine .child (.functionBody h) fun b hb => .closeDeclaration (by simp) ?_ ?_
    · have hparts : ∀ c ∈ n.withRole .name :: s ++ [b], PartOfFunction c :=
        List.forall_mem_append.mpr ⟨hhead, by simpa using hb⟩
      split <;> exact fun b hb => ⟨hb, hparts⟩
    · exact fun _ => ⟨rfl, by dsimp only [Tree.kind]; split <;> nofun⟩

theorem functionExpression (h : FormingRules src dialect rules) :
    Yields src dialect .firm Usual (functionExpression rules) := by
  refine .start fun a => .move .optionalAsync fun _ => .take (.expectWord _) fun _ => ?_
  refine .move (.accept _) fun generator => .look .token fun _ => ?_
  refine .maybeAs .identifier fun n hn => .children (.signature h) fun s hs => ?_
  refine .child (.functionBody h) fun b hb => ?_
  have hname : ∀ c ∈ n, PartOfFunction c := by
    intro c hc
    obtain ⟨t, ht, rfl⟩ := hn c hc
    exact ht.partOfFunction
  have hparts : ∀ c ∈ n ++ s ++ [b], PartOfFunction c :=
    List.forall_mem_append.mpr ⟨List.forall_mem_append.mpr ⟨hname, hs⟩, by simpa using hb⟩
  refine .closeShaped nofun (by simp) ?_ fun _ => ⟨rfl, ?_⟩
  · split
    · exact fun _ _ => trivial
    · exact fun b hb => ⟨hb, hparts⟩
  · dsimp only [Tree.kind]
    split <;> nofun

end Yields

theorem Looks.atFunction : Looks atFunction :=
  .bind (.atWord _) fun _ => .ite (.pure _) (.bind (.atWord _) fun _ => .bind .ahead fun _ => .pure _)

theorem Lays.arrowTail (h : FormingRules src dialect rules) (mode : Mode) :
    Lays src dialect r .firm (fun _ => True) (arrowTail rules mode) := by
  refine fun a ts => .take (.expect _) fun _ => .look (.at? _) fun _ => ?_
  extract_lets go
  have hgo (b : Tree) : Leads src (Laid src dialect a .firm (ts ++ [b]))
      (fun t d => Laid src dialect a .firm (ts ++ [t]) d ∧ True) (go b) :=
    fun c hc => .pure hc.placed.within ⟨hc.congr (by simp), trivial⟩
  exact .ite (.child (h .block) fun b _ => hgo b) (.child (h (.assignment mode)) fun b _ => hgo b)

namespace Yields

theorem nameArrow (h : FormingRules src dialect rules) (mode : Mode) :
    Yields src dialect .firm Usual (nameArrow rules mode) := by
  refine .start fun a => .atWord fun _ => .look .ahead fun _ => ?_
  extract_lets go
  have hgo {r : Reach} (u : Unit) : Leads src (Laid src dialect a r [])
      (Whole src dialect a .firm Usual) (go u) := by
    refine .child .identifier fun p _ => .childLaid (.arrowTail h mode) fun b _ => ?_
    exact .close rfl (by simp)
  refine .ifs (fun hb => ?_) fun _ => .forget (hgo ())
  refine .seen (Bool.and_elim_left hb) (.advance rfl (.look .onNewLine fun _ => ?_))
  exact .look (.guardThat _) fun u => hgo u

theorem arrow (h : FormingRules src dialect rules) (mode : Mode) :
    Yields src dialect .firm Usual (arrow rules mode) := by
  refine .start fun a => .move (.acceptWord _) fun _ => ?_
  refine .children (.optionalTypeParameters h) fun ts _ => .child (.formalParameters h) fun ps _ => ?_
  refine .children (.optionalResult h) fun r _ => .childLaid (.arrowTail h mode) fun b _ => ?_
  exact .look (.at? _) fun _ => .look (.guardThat _) fun _ => .close rfl (by simp)

end Yields

theorem Lists.methodTail (h : FormingRules src dialect rules) :
    Lists src dialect r .firm (fun _ => True) (methodTail rules) :=
  fun _ _ => .children (.signature h) fun _ _ => .child (.functionBody h) fun _ _ =>
    .results (by simp) fun _ _ => trivial

/-! ## Classes -/

theorem Lists.classHeritage (h : FormingRules src dialect rules) :
    Lists src dialect r r Usual (classHeritage rules) := by
  intro a ts c hc
  have hstart := hc.placed.starts.laid
  let added (us : List Tree) (d : Cursor) : Prop :=
    Laid src dialect a r (ts ++ us) d ∧ ∀ u ∈ us, Usual u
  have hfinish (base types : List Tree) (hne : base ≠ [] ∨ types ≠ []) :
      Leads src (Laid src dialect c.start .firm (base ++ types)) added
        (if (base.isEmpty && types.isEmpty) = true then Pure.pure [] else do
          let t ← Parser.close .classHeritage c.start (base ++ types)
          Pure.pure [t]) := by
    refine .ifs (fun hnone => by simp_all) fun _ => .bind (.close rfl (by simp)) ?_
    exact fun t d ht => .pure ht.placed.within ⟨hc.add ht.loosen, by simpa using ht.property⟩
  refine .look ?_
  extract_lets go
  have hgo (base : List Tree) (hbase : base ≠ []) :
      Leads src (Laid src dialect c.start .firm base) added (go base) := by
    refine fun d hd => .acceptTypedWord (fun htoken => ?_) ?_
    · refine (Leads.children (.commaList (h .typeOperand)) fun types _ => ?_) _
        (hd.take hd.placed.advance (hd.placed.past (by rw [htoken]; rfl)))
      exact hfinish base types (.inl hbase)
    · exact hfinish base [] (.inl hbase) d (by simpa using hd)
  refine .acceptWord (fun htoken => ?_) fun _ => ?_
  · refine (Leads.child (h .chain) fun e _ => .look .isTyped fun _ => .look (.at? _) fun _ => ?_) _
      (hstart.take hc.placed.advance (hc.placed.past (by rw [htoken]; rfl)))
    exact .maybe (.typeArguments h) fun us _ => by simpa using hgo (e :: us) nofun
  · show ReadsAt src c added (go [])
    refine .acceptTypedWord (fun htoken => ?_) (.pure hc.placed.within ⟨by simpa using hc, by simp⟩)
    refine .bind (Lists.commaList_ne_nil (h .typeOperand) _ _ _
      (hstart.take hc.placed.advance (hc.placed.past (by rw [htoken]; rfl)))) ?_
    exact fun types d _ ⟨hd, hne⟩ => hfinish [] types (.inr hne) d hd.1

theorem Looks.modifiesMember (w : String) : Looks (modifiesMember w) :=
  .bind .ahead fun _ => .pure _

theorem Moves.memberModifierRun : Moves src dialect memberModifierRun := by
  refine .look .isTyped fun _ => .repeated fun c hc => ?_
  have hnone : ReadsAt src c _ (Pure.pure none : Parser (Option String)) := Moves.pure none c hc
  refine .look ?_
  split
  · rename_i hname
    refine .lookAt (.modifiesMember _) fun _ => .ite (fun _ => ?_) fun _ => hnone
    exact hc.taken (by rw [hname]; rfl)
  · exact hnone

theorem Lists.fieldTail (h : FormingRules src dialect rules) :
    Lists src dialect r r (fun _ => True) (fieldTail rules) := by
  refine fun a ts => .children (.optionalDeclaredType h) fun t _ => .move (.accept _) fun _ => ?_
  refine .maybeAs (Yields.loosen (h (.assignment .usual))) fun v _ => .move .semicolon fun _ => ?_
  exact .results (by simp) fun _ _ => trivial

theorem Lists.classMethodTail (h : FormingRules src dialect rules) :
    Lists src dialect r .firm (fun _ => True) (classMethodTail rules) := by
  refine fun a ts => .children (.signature h) fun s _ => .look .isTyped fun _ => ?_
  refine .look (.at? _) fun _ => .ite ?_ ?_
  · exact .move .semicolon fun _ => .results (by simp) fun _ _ => trivial
  · exact .child (.functionBody h) fun b _ => .results (by simp) fun _ _ => trivial

namespace Yields

theorem classMember (h : FormingRules src dialect rules) :
    Yields src dialect .firm Usual (classMember rules) := by
  refine .start fun a => .children (.decorators h) fun ds _ => ?_
  refine .atWord fun _ => .look .ahead fun _ => ?_
  refine .ifs (fun hb => .seen (Bool.and_elim_left hb) (.advance rfl ?_)) fun _ => .forget ?_
  · exact .child (h .block) fun b _ => .close rfl (by simp)
  · refine .move .memberModifierRun fun words => .look (.guardThat _) fun _ => ?_
    extract_lets index go
    have hindex : Leads src (Laid src dialect a .fresh ([] ++ ds))
        (fun s => Laid src dialect a .firm ([] ++ ds ++ [s])) index :=
      .child (.indexSignature h) fun s _ => .move .semicolon fun _ c hc =>
        .pure hc.placed.within hc
    have hindexed (s : Tree) : Leads src (Laid src dialect a .firm ([] ++ ds ++ [s]))
        (Whole src dialect a .firm Usual) (go (some s)) := .close rfl (by simp)
    have hmember : Leads src (Laid src dialect a .fresh ([] ++ ds))
        (Whole src dialect a .firm Usual) (go none) := by
      refine .move (.accept _) fun generator => .child (.memberKey h) fun k _ => ?_
      refine .look .isTyped fun _ => ?_
      extract_lets key tail
      have htail (u : Unit) : Leads src (Laid src dialect a .firm ([] ++ ds ++ [k]))
          (Whole src dialect a .firm Usual) (tail u) := by
        refine .look (.at? _) fun _ => .look .isTyped fun _ => .look (.at? _) fun _ => .ite ?_ ?_
        · exact .children (.classMethodTail h) fun m _ =>
            .close rfl (by simp [key])
        · refine .look (.guardThat _) fun _ => .children (.fieldTail h) fun f _ => ?_
          exact .close rfl (by simp [key])
      refine .ite (.move (.accept _) fun _ => .ite ?_ (htail ())) (htail ())
      exact .move (.accept _) fun _ => htail ()
    refine .look .isTyped fun _ => .look (.at? _) fun _ => .ite ?_ hmember
    exact .attempt hindex hindexed hmember

theorem classBody (h : FormingRules src dialect rules) :
    Yields src dialect .firm Usual (classBody rules) := by
  refine .start fun a => .take (.expect _) fun _ => ?_
  have hstep : Steps src dialect .firm Usual id (do
      if ← Parser.at? "\x7d" then return none
      if ← Parser.accept ";" then return some []
      return some [← Grammar.classMember rules]) := by
    refine fun a ts => .look (.at? _) fun _ => .ite Steps.ends (.accept (Steps.skips rfl) ?_)
    exact .child (classMember h) fun m hm => Steps.lays id [m] (by simpa using hm)
  refine .bind (hstep.repeated a []) fun ms => .known fun _ => ?_
  rw [List.flatMap_id]
  exact .take (.expect _) fun _ => .close rfl (by simp)

end Yields

theorem Leads.classTail (h : FormingRules src dialect rules) {ds : List Tree}
    (hk : isFree k = true) (nameNeeded : Bool) :
    Leads src (Laid src dialect a r ds) (Whole src dialect a .firm Usual)
      (classTail rules k a ds nameNeeded) := by
  refine .take (.expectWord _) fun _ => .look .token fun x => ?_
  extract_lets go goNamed
  have hnamed (named : Bool) : Leads src (Laid src dialect a .firm ds)
      (Whole src dialect a .firm Usual) (goNamed named) := by
    refine .maybeAs .identifier fun n _ => .children (.optionalTypeParameters h) fun ts _ => ?_
    refine .children (.classHeritage h) fun hs _ => .child (.classBody h) fun b _ => ?_
    exact .close hk (by simp)
  split
  · exact .look .isTyped fun _ => hnamed _
  · exact hnamed _

namespace Yields

theorem classExpression (h : FormingRules src dialect rules) :
    Yields src dialect .firm Usual (classExpression rules) :=
  .start fun _ => .children (.decorators h) fun _ _ =>
    .classTail (k := .classExpression) h rfl _

theorem classDeclaration (h : FormingRules src dialect rules) :
    Yields src dialect .firm Usual (classDeclaration rules) := by
  refine .start fun a => .children (.decorators h) fun ds _ => .move (.acceptTypedWord _) fun _ => ?_
  exact .ite (.classTail (k := .abstractClassDeclaration) h rfl _)
    (.classTail (k := .classDeclaration) h rfl _)

end Yields

end SceneSync.Script
