import Mathlib
import SceneSync.Proofs.Script.Reading.Spelling
import SceneSync.Script.Grammar.TypeOperator

/-!
# Reading types and patterns

The rules for names, types, patterns and parameters give sound trees, if the goals that
they open do.
-/

namespace SceneSync.Script

open Script.Parser Grammar

/-- Parsers of the goals that give sound trees. Neither a construction nor markup is a
chain of names. -/
structure SoundRules (src : List Char) (rules : Rules) : Prop where
  sound : ∀ goal, Reads src (Sound src) (rules goal)
  construction : Reads src (Other src) (rules .construction)
  markup : Reads src (Other src) (rules .markup)

namespace Reads

variable {src : List Char} {rules : Rules}

/-! ## Names and keys -/

theorem identifier : Reads src (Sound src) identifier :=
  .after .token fun _ => .after (.guardThat _) fun _ => .leaf nofun

theorem anyName {k : Kind} (hk : k ≠ .newExpression) : Reads src (Sound src) (anyName k) := by
  refine .after .token fun t => ?_
  split
  · exact .leaf hk
  · exact .failure

theorem stringLiteral : Reads src (Sound src) stringLiteral := by
  refine .after .token fun t => ?_
  split
  · exact .leaf nofun
  · exact .failure

theorem memberKey (h : SoundRules src rules) : Reads src (Sound src) (memberKey rules) := by
  refine .after .token fun t => ?_
  split
  · exact .leaf nofun
  · exact .leaf nofun
  · exact .leaf nofun
  · exact .leaf nofun
  · refine .after .start fun a => .after .advance fun _ => .bind (h.sound _) fun e he => ?_
    exact .after (.expect _) fun _ => .close nofun (by simp [he])
  · exact .failure

/-- A part that may be missing, and what comes behind it. -/
theorem maybe {β : Type} {Q : β → Prop} {p : Parser Tree} {f : List Tree → Parser β} {b : Bool}
    (hp : Reads src (Sound src) p) (hf : ∀ ts, AllSound src ts → Reads src Q (f ts)) :
    Reads src Q (if b = true then (do let t ← p; let ts ← Pure.pure [t]; f ts)
      else do let ts ← Pure.pure []; f ts) :=
  .ite (.bind hp fun t ht => hf [t] (by simp [ht])) (hf [] allSound_nil)

/-- As `maybe`, for a part in a role of its own. -/
theorem maybe_role {β : Type} {Q : β → Prop} {p : Parser Tree} {f : List Tree → Parser β}
    {b : Bool} {r : Role} (hp : Reads src (Sound src) p)
    (hf : ∀ ts, AllSound src ts → Reads src Q (f ts)) :
    Reads src Q (if b = true then (do let t ← p; let ts ← Pure.pure [t.withRole r]; f ts)
      else do let ts ← Pure.pure []; f ts) :=
  .ite (.bind hp fun t ht => hf [t.withRole r] (by simp [ht])) (hf [] allSound_nil)

/-! ## Types -/

theorem typeArguments (h : SoundRules src rules) :
    Reads src (Sound src) (typeArguments rules) := by
  refine .after .start fun a => .after (.expect _) fun _ => ?_
  refine .bind (.commaList (h.sound _)) fun ts hts => ?_
  exact .after (.expect _) fun _ => .close nofun hts

theorem declaredType (h : SoundRules src rules) :
    Reads src (Sound src) (declaredType rules) := by
  refine .after .start fun a => .after (.expect _) fun _ => .bind (h.sound _) fun t ht => ?_
  exact .close nofun (by simp [ht])

theorem optionalDeclaredType (h : SoundRules src rules) :
    Reads src (AllSound src) (optionalDeclaredType rules) := by
  refine .after .isTyped fun _ => .after (.at? _) fun _ => ?_
  exact .maybe (.declaredType h) fun ts hts => .pure hts

theorem typeParameter (h : SoundRules src rules) :
    Reads src (Sound src) (typeParameter rules) := by
  refine .after .start fun a => .after (.skips ?_) fun _ => .bind .identifier fun n hn => ?_
  · refine .after .token fun t => ?_
    split
    · refine .ite (.after .ahead fun p => ?_) (.pure trivial)
      split
      · exact .after .advance fun _ => .pure trivial
      · exact .pure trivial
    · exact .pure trivial
  · refine .after (.acceptWord _) fun _ => .maybe (h.sound _) fun bound hbound => ?_
    refine .after (.accept _) fun _ => .maybe (h.sound _) fun default hdefault => ?_
    exact .close nofun (by simp [hn, hbound, hdefault])

theorem typeParameters (h : SoundRules src rules) :
    Reads src (Sound src) (typeParameters rules) := by
  refine .after .start fun a => .after (.expect _) fun _ => ?_
  refine .bind (.listUntil (.typeParameter h)) fun ps hps => ?_
  exact .after (.guardThat _) fun _ => .close nofun hps

theorem optionalTypeParameters (h : SoundRules src rules) :
    Reads src (AllSound src) (optionalTypeParameters rules) := by
  refine .after .isTyped fun _ => .after (.at? _) fun _ => ?_
  exact .maybe (.typeParameters h) fun ts hts => .pure hts

theorem resultType (h : SoundRules src rules) : Reads src (Sound src) (resultType rules) := by
  refine .after .start fun a => .bind (.attempt (P := Sound src) ?_) fun o ho => ?_
  · refine .after (.expectWord _) fun _ => .after .onNewLine fun _ => ?_
    refine .after (.guardThat _) fun _ => .bind (.anyName nofun) fun x hx => ?_
    refine .after (.acceptWord _) fun _ => ?_
    exact .maybe (h.sound _) fun t ht => .close nofun (by simp [hx, ht])
  · split
    · exact .pure (ho _ rfl)
    · refine .bind (.attempt (P := Sound src) ?_) fun o' ho' => ?_
      · refine .bind (.anyName nofun) fun x hx => .after .onNewLine fun _ => ?_
        refine .after (.guardThat _) fun _ => .after (.expectWord _) fun _ => ?_
        exact .bind (h.sound _) fun t ht => .close nofun (by simp [hx, ht])
      · split
        · exact .pure (ho' _ rfl)
        · exact h.sound _

theorem declaredResult (h : SoundRules src rules) :
    Reads src (Sound src) (declaredResult rules) := by
  refine .after .start fun a => .after (.expect _) fun _ => .bind (.resultType h) fun t ht => ?_
  exact .close nofun (by simp [ht])

theorem optionalResult (h : SoundRules src rules) :
    Reads src (AllSound src) (optionalResult rules) := by
  refine .after .isTyped fun _ => .after (.at? _) fun _ => ?_
  exact .maybe (.declaredResult h) fun ts hts => .pure hts

theorem queriedPath (h : SoundRules src rules) : Reads src (Sound src) (queriedPath rules) := by
  -- a step adds a member or an index, never a construction
  have hsteps {a : Nat} {steps : List (Kind × Tree × Cursor)} {t : Tree}
      (ht : Sound src t) (hs : ∀ s ∈ steps, s.1 ≠ .newExpression ∧ Sound src s.2.1) :
      Sound src (steps.foldl (fun t s =>
        let role := if s.1 == .memberExpression then Role.property else Role.index
        .node .plain s.1 a s.2.2.previous [t.withRole .object, s.2.1.withRole role]) t) := by
    refine List.foldlRecOn _ _ ht fun t ht s hmem => ?_
    exact sound_of_children (hs s hmem).1 (by simp [ht, (hs s hmem).2])
  refine .after .start fun a => .after (.acceptWord _) fun _ => .after (.atWord _) fun _ => ?_
  extract_lets close index bracket go
  have hclose (i : Tree) (hi : Sound src i) : Reads src (Sound src) (close i) :=
    .after (.expect _) fun _ => .pure hi
  have hindex : Reads src (Sound src) index := by
    refine .after .advance fun _ => .after .token fun t => ?_
    split
    · exact .bind (.leaf nofun) hclose
    · exact .bind (.leaf nofun) hclose
    · exact .ite (.bind (.leaf nofun) hclose) .failed
    · exact .failed
  have hbracket (u : Unit) :
      Reads src (fun o => ∀ s ∈ o, s.1 ≠ .newExpression ∧ Sound src s.2.1) (bracket u) := by
    refine .after (.at? _) fun _ => .ite (.bind (.attempt hindex) fun o ho => ?_) (.pure (by simp))
    split
    · exact .bind .here fun c _ => .pure (by simpa using ho)
    · exact .pure (by simp)
  have hgo (head : Tree) (hhead : Sound src head) : Reads src (Sound src) (go head) := by
    refine .bind (.repeated ?_) fun steps hs => .pure (hsteps hhead hs)
    refine .after (.at? _) fun _ => .after (.at? _) fun _ => .ite ?_ (hbracket ())
    refine .after .advance fun _ => .after .token fun t => ?_
    split
    · exact .bind (.leaf nofun) fun n hn => .bind .here fun c _ => .pure (by simp [hn])
    · exact .bind (.leaf nofun) fun n hn => .bind .here fun c _ => .pure (by simp [hn])
    · exact .failed
  refine .ite ?_ (.ite (.bind (.leaf nofun) hgo) (.bind .identifier hgo))
  refine .after (.expect _) fun _ => .bind (h.sound _) fun s hs => .after (.expect _) fun _ => ?_
  exact .bind (.close nofun (by simp [hs])) hgo

theorem typeQuery (h : SoundRules src rules) : Reads src (Sound src) (typeQuery rules) := by
  refine .after .start fun a => .after (.expectWord _) fun _ => ?_
  refine .bind (.queriedPath h) fun p hp => .after (.at? _) fun _ => .after .onNewLine fun _ => ?_
  exact .maybe (.typeArguments h) fun ts hts => .close nofun (by simp [hp, hts])

/-- The names behind points. -/
theorem pointedNames {k : Kind} (hk : k ≠ .newExpression) :
    Reads src (AllSound src) (Parser.repeated do
      if ← Parser.accept "." then return some (← Grammar.anyName k)
      return none) :=
  .behindEach (.anyName hk)

theorem namedType (h : SoundRules src rules) : Reads src (Sound src) (namedType rules) := by
  refine .after .start fun a => .after .token fun t => ?_
  split
  · refine .ite (.leaf nofun) (.after (.guardThat _) fun _ => .bind (.leaf nofun) fun n hn => ?_)
    refine .bind (.pointedNames nofun) fun ns hns => .after (.at? _) fun _ => ?_
    refine .after .onNewLine fun _ => .maybe (.typeArguments h) fun ts hts => ?_
    exact .close nofun (by simp [hn, hns, hts])
  · exact .failure

theorem importedType (h : SoundRules src rules) : Reads src (Sound src) (importedType rules) := by
  refine .after .start fun a => .after (.expectWord _) fun _ => .after (.expect _) fun _ => ?_
  refine .bind (h.sound _) fun s hs => .after (.accept _) fun _ => ?_
  refine .maybe (h.sound _) fun _ _ => .after (.expect _) fun _ => ?_
  refine .bind (.pointedNames nofun) fun ns hns => .after (.at? _) fun _ => ?_
  exact .maybe (.typeArguments h) fun ts hts => .close nofun (by simp [hs, hns, hts])

theorem tupleElement (h : SoundRules src rules) : Reads src (Sound src) (tupleElement rules) := by
  refine .after .start fun a => .after (.accept _) fun _ => ?_
  refine .bind (.attempt (P := Sound src) ?_) fun o ho => ?_
  · refine .bind (.anyName nofun) fun n hn => .after (.accept _) fun _ => ?_
    refine .after (.expect _) fun _ => .bind (h.sound _) fun t ht => ?_
    exact .close nofun (by simp [hn, ht])
  · split
    · exact .pure (ho _ rfl)
    · refine .bind (h.sound _) fun t ht => .after (.accept _) fun _ => ?_
      exact .close nofun (by simp [ht])

theorem memberEnd : Reads src (fun _ => True) memberEnd := by
  refine .after (.acceptOneOf _) fun _ => .ite (.pure trivial) ?_
  exact .after (.at? _) fun _ => .after .onNewLine fun _ => .ite (.pure trivial) .failure

theorem templateParts (h : SoundRules src rules) (goal : Goal) :
    Reads src (Other src) (templateParts rules goal) := by
  refine .after .start fun a => .after (.at? _) fun _ => .after (.guardThat _) fun _ => ?_
  refine .bind (.repeated (P := Sound src) ?_) fun parts hparts => .bind .here fun c _ => ?_
  · refine .bind .here fun c hc => ?_
    split
    · exact .failure
    · rename_i hchunk
      exact .after (.set (hc.jump (eats_templateChunk hchunk))) fun _ => .pure (by simp)
    · rename_i hchunk
      refine .after (.set (hc.jump (eats_templateChunk hchunk))) fun _ => ?_
      refine .bind (h.sound _) fun t ht => .after (.at? _) fun _ => ?_
      exact .after (.guardThat _) fun _ => .pure (by simpa using ht)
  · exact .pure ⟨sound_of_children nofun hparts, nofun, nofun⟩

/-! ## Patterns and parameters -/

theorem patternWithDefault (h : SoundRules src rules) :
    Reads src (Sound src) (patternWithDefault rules) := by
  refine .after .start fun a => .bind (h.sound _) fun p hp => .after (.accept _) fun _ => ?_
  exact .ite (.bind (h.sound _) fun v hv => .close nofun (by simp [hp, hv])) (.pure hp)

theorem restPattern (h : SoundRules src rules) : Reads src (Sound src) (restPattern rules) := by
  refine .after .start fun a => .after (.expect _) fun _ => .bind (h.sound _) fun p hp => ?_
  exact .close nofun (by simp [hp])

theorem objectPatternMember (h : SoundRules src rules) :
    Reads src (Sound src) (objectPatternMember rules) := by
  refine .after (.at? _) fun _ => .ite (.restPattern h) ?_
  refine .after .start fun a => .after .token fun _ => .bind (.memberKey h) fun k hk => ?_
  refine .after (.accept _) fun _ => .ite ?_ ?_
  · exact .bind (.patternWithDefault h) fun v hv => .close nofun (by simp [hk, hv])
  · have hn : Sound src (k.withKind .shorthandName) := sound_withKind nofun hk
    refine .after (.guardThat _) fun _ => .after (.accept _) fun _ => .ite ?_ (.pure hn)
    exact .bind (h.sound _) fun v hv => .close nofun (by simp [hn, hv])

theorem objectPattern (h : SoundRules src rules) :
    Reads src (Sound src) (objectPattern rules) := by
  refine .after .start fun a => .after (.expect _) fun _ => ?_
  exact .bind (.listUntil (.objectPatternMember h)) fun ms hms => .close nofun hms

theorem sparseList {item : Parser Tree} (hitem : Reads src (Sound src) item) :
    Reads src (AllSound src) (sparseList item) := by
  refine .bind (.repeated (P := AllSound src) ?_) fun items hitems => ?_
  · refine .after (.at? _) fun _ => .ite (.pure (by simp)) ?_
    refine .after (.accept _) fun _ => .ite (.pure (by simp)) (.bind hitem fun x hx => ?_)
    have hone : ∀ ts ∈ some [x], AllSound src ts := by simp [hx]
    exact .after (.at? _) fun _ => .ite (.after (.expect _) fun _ => .pure hone) (.pure hone)
  · refine .after (.expect _) fun _ => .pure fun t ht => ?_
    obtain ⟨ts, hts, ht⟩ := List.mem_flatten.mp ht
    exact hitems ts hts t ht

theorem arrayPattern (h : SoundRules src rules) : Reads src (Sound src) (arrayPattern rules) := by
  refine .after .start fun a => .after (.expect _) fun _ => ?_
  refine .bind (.sparseList ?_) fun es hes => .close nofun hes
  exact .after (.at? _) fun _ => .ite (.restPattern h) (.patternWithDefault h)

theorem pattern (h : SoundRules src rules) : Reads src (Sound src) (pattern rules) := by
  refine .after (.at? _) fun _ => .ite (.objectPattern h) ?_
  exact .after (.at? _) fun _ => .ite (.arrayPattern h) .identifier

theorem decorator (h : SoundRules src rules) : Reads src (Sound src) (decorator rules) := by
  refine .after .start fun a => .after (.expect _) fun _ => .after (.at? _) fun _ => .ite ?_ ?_
  · refine .after (.expect _) fun _ => .bind (h.sound _) fun e he => .after (.expect _) fun _ => ?_
    exact .close nofun (by simp [he])
  · refine .bind (.anyName nofun) fun n hn => .bind (.repeated (P := Sound src) ?_) fun ns hns => ?_
    · refine .after (.accept _) fun _ => .ite (.after .token fun t => ?_) (.pure (by simp))
      split
      · exact .bind (.leaf nofun) fun m hm => .pure (by simpa using hm)
      · exact .bind (.anyName nofun) fun m hm => .pure (by simpa using hm)
    · refine .after .isTyped fun _ => .after (.at? _) fun _ => ?_
      refine .maybe (.typeArguments h) fun ts hts => .after (.accept _) fun _ => ?_
      extract_lets go
      have hgo (args : List Tree) (hargs : AllSound src args) : Reads src (Sound src) (go args) :=
        .close nofun (by simp [hn, show AllSound src ns from hns, hts, hargs])
      refine .ite (.bind (.listUntil ?_) hgo) (hgo [] allSound_nil)
      exact .after (.accept _) fun _ => h.sound _

theorem decorators (h : SoundRules src rules) : Reads src (AllSound src) (decorators rules) :=
  .repeated (P := Sound src) (.after (.at? _) fun _ => .ite
    (.bind (.decorator h) fun t ht => .pure (by simpa using ht)) (.pure (by simp)))

theorem modifies : Reads src (fun _ => True) modifies := by
  refine .after .ahead fun p => ?_
  split <;> exact .pure trivial

theorem typedParameter (h : SoundRules src rules) :
    Reads src (Sound src) (typedParameter rules) := by
  refine .after .start fun a => .bind (.decorators h) fun ds hds => .after (.skips ?_) fun _ => ?_
  · refine .after .token fun t => ?_
    split
    · refine .after .modifies fun _ => .ite ?_ (.pure trivial)
      exact .after .advance fun _ => .pure trivial
    · exact .pure trivial
  · refine .after (.at? _) fun _ => .after (.atWord _) fun _ => ?_
    extract_lets go
    have hgo (p : Tree) (hp : Sound src p) : Reads src (Sound src) (go p) := by
      refine .after (.accept _) fun optional => .bind (.optionalDeclaredType h) fun t ht => ?_
      refine .after (.accept _) fun _ => .maybe_role (h.sound _) fun v hv => ?_
      exact .close (by split <;> nofun) (by simp [hds, hp, ht, hv])
    exact .ite (.bind (.restPattern h) hgo) (.ite (.bind (.leaf nofun) hgo) (.bind (h.sound _) hgo))

theorem parameter (h : SoundRules src rules) : Reads src (Sound src) (parameter rules) := by
  refine .after .isTyped fun _ => .ite (.typedParameter h) (.after (.at? _) fun _ => ?_)
  exact .ite (.restPattern h) (.patternWithDefault h)

theorem formalParameters (h : SoundRules src rules) :
    Reads src (Sound src) (formalParameters rules) := by
  refine .after .start fun a => .after (.expect _) fun _ => ?_
  exact .bind (.listUntil (.parameter h)) fun ps hps => .close nofun hps

/-! ## Composite types -/

theorem functionType (h : SoundRules src rules) :
    Reads src (Sound src) (functionType rules) := by
  refine .after .start fun a => .after (.acceptWord _) fun _ => .after (.acceptWord _) fun _ => ?_
  refine .after (.at? _) fun _ => .maybe (.typeParameters h) fun ts hts => ?_
  refine .bind (.formalParameters h) fun ps hps => .after (.expect _) fun _ => ?_
  exact .bind (.resultType h) fun r hr => .close nofun (by simp [hts, hps, hr])

theorem signatureTail (h : SoundRules src rules) :
    Reads src (AllSound src) (signatureTail rules) := by
  refine .after (.at? _) fun _ => .maybe (.typeParameters h) fun ts hts => ?_
  refine .bind (.formalParameters h) fun ps hps => .bind (.optionalResult h) fun r hr => ?_
  exact .pure (by simp [hts, hps, hr])

theorem indexSignature (h : SoundRules src rules) :
    Reads src (Sound src) (indexSignature rules) := by
  refine .after .start fun a => .after (.acceptOneOf _) fun _ => .after (.acceptWord _) fun _ => ?_
  refine .after (.expect _) fun _ => .bind (.anyName nofun) fun k hk => ?_
  refine .after (.acceptWord _) fun _ => ?_
  extract_lets go
  have hgo (key : List Tree) (hkey : AllSound src key) : Reads src (Sound src) (go key) := by
    refine .after (.expect _) fun _ => .after (.acceptOneOf _) fun _ => ?_
    refine .after (.accept _) fun _ => .bind (.optionalDeclaredType h) fun t ht => ?_
    exact .close nofun (by simp [hk, hkey, ht])
  refine .ite ?_ (.bind (.declaredType h) fun t ht => hgo [t] (by simp [ht]))
  refine .bind (h.sound _) fun t ht => .after (.acceptWord _) fun _ => ?_
  exact .maybe (h.sound _) fun r hr => hgo (t :: r) (by simp [ht, hr])

theorem objectTypeMember (h : SoundRules src rules) :
    Reads src (Sound src) (objectTypeMember rules) := by
  refine .after .start fun a => ?_
  extract_lets other go
  have hother : Reads src (Sound src) other := by
    refine .after (.at? _) fun _ => .after (.at? _) fun _ => .ite ?_ ?_
    · exact .bind (.signatureTail h) fun s hs => .close nofun hs
    · refine .bind (.repeated (P := fun _ => True) ?_) fun modified _ => .ite ?_ ?_
      · have hmodifier (b : Bool) : Reads src (fun o => ∀ x ∈ o, True) (do
            Parser.guardThat b
            Parser.advance
            Pure.pure (some true)) :=
          .after (.guardThat _) fun _ => .after .advance fun _ => .pure (by simp)
        have hnew (b : Bool) : Reads src (fun o => ∀ x ∈ o, True) (if b = true then (do
            Parser.advance
            Pure.pure (some false)) else Pure.pure none) :=
          .ite (.after .advance fun _ => .pure (by simp)) (.pure (by simp))
        refine .after .token fun t => ?_
        split
        · refine .ite (.after .ahead fun next => ?_) (.pure (by simp))
          split
          · exact hmodifier _
          · exact hmodifier _
          · exact hmodifier _
          · exact hmodifier _
          · exact hnew _
          · exact hnew _
          · exact .pure (by simp)
        · exact .pure (by simp)
      · exact .bind (.signatureTail h) fun s hs => .close nofun hs
      · refine .bind (.memberKey h) fun k hk => .after (.accept _) fun _ => ?_
        refine .after (.at? _) fun _ => .after (.at? _) fun _ => .ite ?_ ?_
        · exact .bind (.signatureTail h) fun s hs => .close nofun (by simp [hk, hs])
        · exact .bind (.optionalDeclaredType h) fun t ht => .close nofun (by simp [hk, ht])
  have hgo (m : Tree) (hm : Sound src m) : Reads src (Sound src) (go m) :=
    .after .memberEnd fun _ => .pure hm
  refine .bind (.attempt (.indexSignature h)) fun o ho => ?_
  split
  · exact hgo _ (ho _ rfl)
  · exact .bind hother hgo

theorem objectType (h : SoundRules src rules) : Reads src (Sound src) (objectType rules) := by
  refine .after .start fun a => .after (.expect _) fun _ => .after (.acceptOneOf _) fun front => ?_
  refine .bind (.untilAt (.objectTypeMember h)) fun ms hms => ?_
  exact .after (.guardThat _) fun _ => .after (.expect _) fun _ => .close nofun hms

theorem tupleType (h : SoundRules src rules) : Reads src (Sound src) (tupleType rules) := by
  refine .after .start fun a => .after (.expect _) fun _ => ?_
  exact .bind (.listUntil (.tupleElement h)) fun es hes => .close nofun hes

theorem parenthesizedType (h : SoundRules src rules) :
    Reads src (Sound src) (parenthesizedType rules) := by
  refine .after .start fun a => .after (.expect _) fun _ => .bind (h.sound _) fun t ht => ?_
  exact .after (.expect _) fun _ => .close nofun (by simp [ht])

theorem primaryType (h : SoundRules src rules) : Reads src (Sound src) (primaryType rules) := by
  refine .after .token fun t => ?_
  split
  · exact .parenthesizedType h
  · exact .tupleType h
  · exact .objectType h
  · exact (Reads.templateParts h _).mono fun _ ht => ht.sound
  · refine .after .start fun a => .after .advance fun _ => .after .token fun _ => ?_
    refine .after (.guardThat _) fun _ => .bind (.leaf nofun) fun n hn => ?_
    exact .close nofun (by simp [hn])
  · exact .leaf nofun
  · exact .leaf nofun
  · exact .typeQuery h
  · exact .importedType h
  · exact .namedType h
  · exact .failure

theorem indexedType (h : SoundRules src rules) : Reads src (Sound src) (indexedType rules) := by
  have hsteps {a : Nat} {steps : List (List Tree × Nat)} {t : Tree} (ht : Sound src t)
      (hs : ∀ s ∈ steps, AllSound src s.1) :
      Sound src (steps.foldl (fun t s => .node .plain .type a s.2 (t :: s.1)) t) := by
    refine List.foldlRecOn _ _ ht fun t ht s hmem => ?_
    exact sound_of_children nofun (by simp [ht, hs s hmem])
  refine .after .start fun a => .bind (.primaryType h) fun t ht => ?_
  refine .bind (.repeated (P := fun s => AllSound src s.1) ?_) fun steps hs =>
    .pure (hsteps ht hs)
  refine .after (.at? _) fun _ => .after .onNewLine fun _ => .ite ?_ (.pure (by simp))
  refine .after .advance fun _ => .after (.accept _) fun _ => .ite ?_ ?_
  · exact .bind .here fun c _ => .pure (by simp)
  · refine .bind (h.sound _) fun i hi => .after (.expect _) fun _ => .bind .here fun c _ => ?_
    exact .pure (by simp [hi])

theorem typeOperand (h : SoundRules src rules) : Reads src (Sound src) (typeOperand rules) := by
  refine .after .start fun a => .after .token fun t => ?_
  split
  · refine .after .ahead fun next => ?_
    extract_lets bound go
    have hbound : Reads src (Sound src) bound :=
      .after (.expectWord _) fun _ => .bind (h.sound _) fun t ht =>
        .after (.at? _) fun _ => .after (.guardThat _) fun _ => .pure ht
    have hgo (operand : Bool) : Reads src (Sound src) (go operand) := by
      refine .ite ?_ (.ite ?_ (.indexedType h))
      · exact .after .advance fun _ => .bind (h.sound _) fun t ht => .close nofun (by simp [ht])
      · refine .after .advance fun _ => .bind .identifier fun n hn => ?_
        refine .bind (.attempt hbound) fun b hb => .close nofun ?_
        have hb' : AllSound src b.toList := fun t ht => hb t (Option.mem_toList.mp ht)
        simp [hn, hb']
    split <;> exact hgo _
  · exact .indexedType h

theorem typeSeries {separator : String} {item : Parser Tree} (hitem : Reads src (Sound src) item) :
    Reads src (Sound src) (typeSeries separator item) := by
  refine .after .start fun a => .after (.accept _) fun front => .bind hitem fun t ht => ?_
  refine .bind (.behindEach hitem) fun ts hts => .ite (.pure ht) (.close nofun ?_)
  simp [ht, show AllSound src ts from hts]

theorem isFunctionTypeAhead : Reads src (fun _ => True) isFunctionTypeAhead := by
  refine .after .token fun t => ?_
  split
  · exact .pure trivial
  · exact .after .ahead fun _ => .pure trivial
  · exact .pure trivial
  · exact .pure trivial

theorem unionType (h : SoundRules src rules) : Reads src (Sound src) (unionType rules) := by
  refine .typeSeries (.typeSeries (.after .isFunctionTypeAhead fun _ => .ite ?_ (h.sound _)))
  refine .bind (.attempt (.functionType h)) fun o ho => ?_
  split
  · exact .pure (ho _ rfl)
  · exact h.sound _

theorem type (h : SoundRules src rules) : Reads src (Sound src) (type rules) := by
  refine .after .start fun a => .bind (.unionType h) fun t ht => ?_
  refine .after (.atWord _) fun _ => .after .onNewLine fun _ => .ite ?_ (.pure ht)
  refine .after .advance fun _ => .bind (h.sound _) fun u hu => .after (.expect _) fun _ => ?_
  refine .bind (h.sound _) fun x hx => .after (.expect _) fun _ => ?_
  exact .bind (h.sound _) fun y hy => .close nofun (by simp [ht, hu, hx, hy])

end Reads

end SceneSync.Script
