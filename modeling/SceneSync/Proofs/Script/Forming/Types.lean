import Mathlib
import SceneSync.Proofs.Script.Forming.Closing
import SceneSync.Script.Grammar.TypeOperator

/-!
# Forming types

The rules for names, keys and simple types give formed trees, if the goals that they open
do.
-/

namespace SceneSync.Script

open Script.Parser Grammar

variable {src : List Char} {dialect : Dialect} {rules : Rules}

/-- A parser of an element that stops at the closing mark of its last tag. -/
def Tags (src : List Char) (dialect : Dialect) (p : Parser Tree) : Prop :=
  ∀ a, Leads src (Starts src dialect a)
    (fun t d => d.Placed src dialect ∧ d.token = .punct ">" ∧
      Whole src dialect a .firm Usual t d.advance) p

/-- What the parser of a goal gives. -/
def FormsGoal (src : List Char) (dialect : Dialect) : Goal → Parser Tree → Prop
  | .statement => Yields src dialect .loose Usual
  | .markup => Tags src dialect
  | _ => Yields src dialect .firm Usual

/-- Parsers of the goals that give formed trees. -/
def FormingRules (src : List Char) (dialect : Dialect) (rules : Rules) : Prop :=
  ∀ goal, FormsGoal src dialect goal (rules goal)

/-! ## Names and keys -/

theorem isReal_of_isNameToken {x : Token} (h : isNameToken x = true) : x.isReal = true := by
  cases x <;> first | rfl | cases h

namespace Yields

theorem identifier : Yields src dialect .firm (IsToken .identifier) identifier := by
  refine fun a => .token fun x => .guardThat fun hname => ?_
  exact .leaf rfl (isReal_of_isNameToken hname)

theorem anyName {k : Kind} (hk : isTokenKind k = true) :
    Yields src dialect .firm (IsToken k) (anyName k) := by
  refine fun a => .token fun x => ?_
  split
  · exact .leaf hk rfl
  · exact .failure

theorem stringLiteral : Yields src dialect .firm (IsToken .string) stringLiteral := by
  refine fun a => .token fun x => ?_
  split
  · exact .leaf rfl rfl
  · exact .failure

/-- A key that is read from a name is a token. -/
theorem memberKey_at (h : FormingRules src dialect rules) (a : Nat) (x : Token) :
    Leads src (fun c => Starts src dialect a c ∧ c.token = x)
      (Whole src dialect a .firm fun k => Usual k ∧ (isNameToken x = true → k.children = []))
      (memberKey rules) := by
  rintro c ⟨hc, rfl⟩
  refine .look ?_
  have htoken {k : Kind} (hreal : c.token.isReal = true) (hk : isTokenKind k = true) :
      ReadsAt src c (Whole src dialect a .firm fun k =>
        Usual k ∧ (isNameToken c.token = true → k.children = [])) (leaf k) :=
    (Leads.leaf hk hreal c ⟨hc, rfl⟩).mono fun _ _ ht =>
      ht.mono fun hk => ⟨hk.toUsual, fun _ => hk.leaf⟩
  split
  · exact htoken (by simp [*, Token.isReal]) rfl
  · exact htoken (by simp [*, Token.isReal]) rfl
  · exact htoken (by simp [*, Token.isReal]) rfl
  · exact htoken (by simp [*, Token.isReal]) rfl
  · rename_i hbracket
    have hcomputed : Leads src (fun c => Starts src dialect a c ∧ c.token = .punct "[")
        (Whole src dialect a .firm Usual) (do
          let a ← Parser.start
          Parser.advance
          let e ← assignment rules
          Parser.expect "]"
          Parser.close .computedProperty a [e]) :=
      .startAt fun a => .advance rfl (.child (h (.assignment .usual)) fun e _ =>
        .take (.expect _) fun _ => .close rfl (by simp))
    exact (hcomputed c ⟨hc, hbracket⟩).mono fun _ _ ht => ht.mono fun hk =>
      ⟨hk, by simp [hbracket, isNameToken]⟩
  · rintro _ _ ⟨⟩

theorem memberKey (h : FormingRules src dialect rules) :
    Yields src dialect .firm Usual (memberKey rules) :=
  fun a c hc => (memberKey_at h a c.token c ⟨hc, rfl⟩).mono fun _ _ ht => ht.mono (·.1)

/-! ## Types -/

theorem typeArguments (h : FormingRules src dialect rules) :
    Yields src dialect .firm Usual (typeArguments rules) := by
  refine .start fun a => .take (.expect _) fun _ => .children (.commaList (h .type)) fun ts _ => ?_
  exact .take (.expect _) fun _ => .close rfl (by simp)

theorem declaredType (h : FormingRules src dialect rules) :
    Yields src dialect .firm Usual (declaredType rules) := by
  refine .start fun a => .take (.expect _) fun _ => .child (h .type) fun t _ => ?_
  exact .close rfl (by simp)

end Yields

/-- A node that may be missing. -/
theorem Lists.optional {p : Parser Tree} {b : Bool} {r : Reach} {P : Tree → Prop}
    (hp : Yields src dialect .firm P p) :
    Lists src dialect r r P (if b = true then (do return [← p]) else return []) :=
  fun _ _ => .maybe (f := pure) hp.loosen fun _ hus => .results (by simp) hus

theorem Lists.look {α : Type} {q : Parser α} {f : α → Parser (List Tree)} {r r' : Reach}
    {P : Tree → Prop} (hq : Looks q) (hf : ∀ x, Lists src dialect r r' P (f x)) :
    Lists src dialect r r' P (q >>= f) :=
  fun a ts => .look hq fun x => hf x a ts

theorem Lists.optionalDeclaredType {r : Reach} (h : FormingRules src dialect rules) :
    Lists src dialect r r Usual (optionalDeclaredType rules) :=
  .look .isTyped fun _ => .look (.at? _) fun _ => .optional (.declaredType h)

theorem isReal_of_beq {x y : Token} (h : (x == y) = true) (hy : y.isReal = true) :
    x.isReal = true := by
  rwa [beq_iff_eq.mp h]

theorem Cursor.Placed.takes {c : Cursor} (hc : c.Placed src dialect) (hreal : c.token.isReal = true) :
    ReadsAt src c (fun _ d => d.Placed src dialect ∧ (d = c ∨ Begun src c.start d.previous))
      Parser.advance := by
  rintro _ _ ⟨⟩
  exact ⟨hc.advance.within, hc.advance, .inr (hc.past hreal)⟩

/-- A token is taken, and something is told of it. -/
theorem Cursor.Placed.taken {c : Cursor} {x : α} (hc : c.Placed src dialect)
    (hreal : c.token.isReal = true) :
    ReadsAt src c (fun _ d => d.Placed src dialect ∧ (d = c ∨ Begun src c.start d.previous))
      (Parser.advance >>= fun _ => pure x) :=
  .bind (hc.takes hreal) fun _ _ hd h => .pure hd h

namespace Yields

theorem typeParameter (h : FormingRules src dialect rules) :
    Yields src dialect .firm Usual (typeParameter rules) := by
  refine .start fun a => .move (.repeated ?_) fun _ => .child .identifier fun n _ => ?_
  · intro c hc
    have hnone : ReadsAt src c _ (pure none : Parser (Option Unit)) := Moves.pure none c hc
    refine .look ?_
    split
    · rename_i hname
      refine .ite (fun _ => .lookAt .ahead fun p => ?_) fun _ => hnone
      split
      · exact hc.taken (by rw [hname]; rfl)
      · exact hnone
    · exact hnone
  · refine .move (.acceptWord _) fun _ => .maybe (h .type) fun bound _ => ?_
    refine .move (.accept _) fun _ => .maybe (h .type) fun default _ => ?_
    exact .close rfl (by simp)

theorem typeParameters (h : FormingRules src dialect rules) :
    Yields src dialect .firm Usual (typeParameters rules) := by
  refine .start fun a => .take (.expect _) fun _ => .children (.listUntil (.typeParameter h)) ?_
  exact fun ps _ => .look (.guardThat _) fun _ => .close rfl (by simp)

end Yields

theorem Lists.optionalTypeParameters {r : Reach} (h : FormingRules src dialect rules) :
    Lists src dialect r r Usual (optionalTypeParameters rules) :=
  .look .isTyped fun _ => .look (.at? _) fun _ => .optional (.typeParameters h)

theorem Yields.resultType (h : FormingRules src dialect rules) :
    Yields src dialect .firm Usual (resultType rules) := by
  refine .starting fun a => .attempt (J := Whole src dialect a .firm Usual) (.laid ?_)
    (fun t => .result id) ?_
  · refine .take (.expectWord _) fun _ => .look .onNewLine fun _ => .look (.guardThat _) fun _ => ?_
    refine .child (.anyName rfl) fun x _ => .move (.acceptWord _) fun _ => ?_
    exact .maybe (h .type) fun t _ => .close rfl (by simp)
  · refine .attempt (J := Whole src dialect a .firm Usual) (.laid ?_) (fun t => .result id)
      (h .type a)
    refine .child (.anyName rfl) fun x _ => .look .onNewLine fun _ => ?_
    refine .look (.guardThat _) fun _ => .take (.expectWord _) fun _ => ?_
    exact .child (h .type) fun t _ => .close rfl (by simp)

namespace Yields

theorem declaredResult (h : FormingRules src dialect rules) :
    Yields src dialect .firm Usual (declaredResult rules) := by
  refine .start fun a => .take (.expect _) fun _ => .child (.resultType h) fun t _ => ?_
  exact .close rfl (by simp)

end Yields

theorem Lists.optionalResult {r : Reach} (h : FormingRules src dialect rules) :
    Lists src dialect r r Usual (optionalResult rules) :=
  .look .isTyped fun _ => .look (.at? _) fun _ => .optional (.declaredResult h)

namespace Yields

theorem queriedPath (h : FormingRules src dialect rules) :
    Yields src dialect .firm Usual (queriedPath rules) := by
  refine .starting fun a => ?_
  extract_lets close index bracket go
  have hclose (t i : Tree) : Leads src (Laid src dialect a .firm ([t] ++ [i]))
      (fun i => Laid src dialect a .firm ([t] ++ [i])) (close i) :=
    .take (.expect _) fun _ d hd => .pure hd.placed.within hd
  have hindex (t : Tree) : Leads src
      (fun c => Whole src dialect a .firm Usual t c ∧ c.token = .punct "[")
      (fun i => Laid src dialect a .firm ([t] ++ [i])) index := by
    refine .behindSeen (.advance rfl (.token fun x => ?_))
    split
    · exact .leafChild (fun i _ => hclose t i) rfl rfl
    · exact .leafChild (fun i _ => hclose t i) rfl rfl
    · exact .ite (.leafChild (fun i _ => hclose t i) rfl rfl) .failed
    · exact .failed
  have hgo (head : Tree) :
      Leads src (Whole src dialect a .firm Usual head) (Whole src dialect a .firm Usual)
        (go head) := by
    refine .steps (fun t c hc => ?_) head
    refine .look (g := fun c => c.token == .punct ".") (.look (g := fun c => c.token == .punct "?.")
      (.ite (fun hpoint => ?_) fun _ => ?_))
    · have hreal : c.token.isReal = true := by
        rcases Bool.or_eq_true_iff.mp hpoint with h | h <;> exact isReal_of_beq h rfl
      have hlaid := hc.laid.take hc.placed.advance (hc.placed.past hreal)
      refine .advance (Leads.token (I := Laid src dialect a .firm [t]) (fun x => ?_) _ hlaid)
      split
      · exact .leafChild (fun n _ =>
          .grow [t.withRole .object, n.withRole .property] rfl (by simp) fun _ => rfl) rfl rfl
      · exact .leafChild (fun n _ =>
          .grow [t.withRole .object, n.withRole .property] rfl (by simp) fun _ => rfl) rfl rfl
      · exact .failed
    · refine Leads.at? (I := Whole src dialect a .firm Usual t) (fun _ => ?_) c hc
      refine .ifSeen (.attempt (hindex t) (fun i => ?_) ?_) ?_
      · exact .grow [t.withRole .object, i.withRole .index] rfl (by simp) fun _ => rfl
      · exact fun c hc => .pure hc.1.placed.within hc.1
      · exact fun c hc => .pure hc.placed.within hc
  refine .startsAcceptWord (.look (.atWord _) fun _ => .ifs (fun _ => ?_) fun h => absurd rfl h) ?_
  · refine .take (.expect _) fun _ => .child (h .type) fun s _ => .take (.expect _) fun _ => ?_
    exact .bind (.close rfl (by simp)) hgo
  · refine .atWord fun _ => .ifs (fun h => by cases h) fun _ => .ifSeen ?_ ?_
    · exact .bind (.usual .this) hgo
    · exact .bind (.usual (Yields.identifier a)) hgo

theorem typeQuery (h : FormingRules src dialect rules) :
    Yields src dialect .firm Usual (typeQuery rules) := by
  refine .start fun a => .take (.expectWord _) fun _ => .child (.queriedPath h) fun p _ => ?_
  refine .look (.at? _) fun _ => .look .onNewLine fun _ => .maybe (.typeArguments h) fun ts _ => ?_
  exact .close rfl (by simp)

theorem namedType (h : FormingRules src dialect rules) :
    Yields src dialect .firm Usual (namedType rules) := by
  refine .starting fun a => .token fun x => ?_
  split
  · refine .ite (.usual (.leaf rfl rfl)) (.look (.guardThat _) fun _ => ?_)
    refine .startSeen (.leafChild (fun n _ => ?_) rfl rfl)
    refine .children (.behindEach (.anyName rfl)) fun ns _ => ?_
    refine .look (.at? _) fun _ => .look .onNewLine fun _ => .maybe (.typeArguments h) fun ts _ => ?_
    exact .close rfl (by simp)
  · exact .failure

theorem importedType (h : FormingRules src dialect rules) :
    Yields src dialect .firm Usual (importedType rules) := by
  refine .start fun a => .take (.expectWord _) fun _ => .take (.expect _) fun _ => ?_
  refine .child (h .type) fun s _ => .move (.accept _) fun _ => ?_
  refine .maybe (h .type) fun u _ => .dropping (.take (.expect _) fun _ => ?_)
  refine .children (.behindEach (.anyName rfl)) fun ns _ => .look (.at? _) fun _ => ?_
  exact .maybe (.typeArguments h) fun ts _ => .close rfl (by simp)

theorem tupleElement (h : FormingRules src dialect rules) :
    Yields src dialect .firm Usual (tupleElement rules) := by
  refine .start fun a => .move (.accept _) fun _ => ?_
  refine .attempt (J := Whole src dialect a .firm Usual) ?_ (fun t => .result id) ?_
  · refine .child (.anyName rfl) fun n _ => .move (.accept _) fun _ => ?_
    refine .take (.expect _) fun _ => .child (h .type) fun t _ => .close rfl (by simp)
  · refine .child (h .type) fun t _ => .move (.accept _) fun _ => .close rfl (by simp)

end Yields

theorem Moves.memberEnd : Moves src dialect memberEnd := by
  refine .bind (.acceptOneOf _) fun _ => .ite (.pure ()) ?_
  exact .look (.at? _) fun _ => .look .onNewLine fun _ => .ite (.pure ()) Looks.failure.moves

namespace Yields

/-- Between the quotes of a template stand its texts and what it substitutes. -/
theorem templateParts {goal : Goal} (hgoal : Yields src dialect .firm Usual (rules goal)) :
    Yields src dialect .firm Usual (templateParts rules goal) := by
  refine .starting fun a => .at? fun b => .guardThat fun hb c hc => ?_
  have hreal : c.token.isReal = true := by
    rw [hc.2 hb]
    rfl
  have hplaced := hc.1.placed
  -- before each text the parts end with the mark under the cursor
  let before (ts : List Tree) (c : Cursor) : Prop :=
    c.Placed src dialect ∧ Laid src dialect a .firm ts c.advance
  have hbefore : before [] c :=
    ⟨hplaced, hc.1.laid.take hplaced.advance (hplaced.past hreal)⟩
  refine (Leads.bind (ReadsAt.repeats (I := before) (J := Laid src dialect a .firm)
    (g := fun ts t => ts ++ [t]) (fun ts c ⟨hc, hlaid⟩ => ?_) []) fun parts c hc => ?_) c hbefore
  · refine .look (g := id) ?_
    have hjump {pos : Nat} {cs : List Char} {more : Bool}
        (h : templateChunk c.rest c.stop = some (cs, pos, more)) :
        Laid src dialect a .firm ts (c.jump pos cs) := by
      have heats := eats_templateChunk h
      exact hlaid.shift (hc.jump heats) (by simpa using heats.le)
    split
    · nofun
    · rename_i hchunk
      exact .set (.pure (hjump hchunk).placed.within (hjump hchunk))
    · rename_i hchunk
      refine .set ((Leads.child hgoal fun t _ => .look (.at? _) fun _ => .look (.guardThat _) ?_) _
        (hjump hchunk))
      intro _ d hd
      exact .pure hd.placed.within ⟨hd.placed, hd.shift hd.placed.advance
        (by simpa using hd.placed.previous_le_start.trans hd.placed.start_le)⟩
  · refine .look (g := id) (.pure hc.placed.within ?_)
    rw [foldl_snoc, List.nil_append] at hc
    exact hc.whole_around rfl (by simp)

end Yields

end SceneSync.Script
