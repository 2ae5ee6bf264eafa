import Mathlib
import SceneSync.Proofs.Script.Reading.Types
import SceneSync.Script.Grammar.Declaration
import SceneSync.Script.Grammar.Literal

/-!
# Reading functions, classes and declarations

The rules for functions, classes, literals and declarations give sound trees, if the
goals that they open do.
-/

namespace SceneSync.Script

open Script.Parser Grammar

namespace Reads

variable {src : List Char} {rules : Rules} {k : Kind} {a : Nat}

/-! ## Functions -/

theorem signature (h : SoundRules src rules) : Reads src (AllSound src) (signature rules) := by
  refine .bind (.optionalTypeParameters h) fun ts hts => ?_
  refine .bind (.formalParameters h) fun ps hps => .bind (.optionalResult h) fun r hr => ?_
  exact .pure (by simp [hts, hps, hr])

theorem functionBody (h : SoundRules src rules) : Reads src (Sound src) (functionBody rules) :=
  .bind (h.sound _) fun b hb => .pure (by simpa using hb)

theorem optionalAsync : Reads src (fun _ => True) optionalAsync :=
  .after (.atWord _) fun _ => .after .ahead fun _ => .ite (.acceptWord _) (.pure trivial)

theorem functionDeclaration (h : SoundRules src rules) :
    Reads src (Sound src) (functionDeclaration rules) := by
  refine .after .start fun a => .after .optionalAsync fun _ => .after (.expectWord _) fun _ => ?_
  refine .after (.accept _) fun generator => .bind .identifier fun n hn => ?_
  refine .bind (.signature h) fun s hs => .after .isTyped fun _ => ?_
  refine .after (.at? _) fun _ => .ite ?_ ?_
  · exact .after (.guardThat _) fun _ => .closeStatement nofun (by simp [hn, hs])
  · refine .bind (.functionBody h) fun b hb => .closeDeclaration (by split <;> nofun) ?_
    simp [hn, hs, hb]

theorem functionExpression (h : SoundRules src rules) :
    Reads src (Other src) (functionExpression rules) := by
  refine .after .start fun a => .after .optionalAsync fun _ => .after (.expectWord _) fun _ => ?_
  refine .after (.accept _) fun generator => .after .token fun _ => ?_
  refine .maybe_role .identifier fun n hn => .bind (.signature h) fun s hs => ?_
  refine .bind (.functionBody h) fun b hb => ?_
  exact .close_other (by split <;> nofun) (by split <;> nofun) (by split <;> nofun)
    (by simp [hn, hs, hb])

theorem atFunction : Reads src (fun _ => True) atFunction :=
  .after (.atWord _) fun _ => .ite (.pure trivial)
    (.after (.atWord _) fun _ => .after .ahead fun _ => .pure trivial)

theorem arrowTail (h : SoundRules src rules) (mode : Mode) :
    Reads src (Sound src) (arrowTail rules mode) := by
  refine .after (.expect _) fun _ => .after (.at? _) fun _ => ?_
  extract_lets go
  have hgo (b : Tree) (hb : Sound src b) : Reads src (Sound src) (go b) := .pure (by simpa using hb)
  exact .ite (.bind (h.sound _) hgo) (.bind (h.sound _) hgo)

theorem nameArrow (h : SoundRules src rules) (mode : Mode) :
    Reads src (Sound src) (nameArrow rules mode) := by
  refine .after .start fun a => .after (.atWord _) fun _ => .after .ahead fun _ => ?_
  extract_lets go
  have hgo (u : Unit) : Reads src (Sound src) (go u) := by
    refine .bind .identifier fun p hp => .bind (.arrowTail h mode) fun b hb => ?_
    exact .close nofun (by simp [hp, hb])
  refine .ite (.after .advance fun _ => .after .onNewLine fun _ => ?_) (hgo ())
  exact .after (.guardThat _) hgo

theorem arrow (h : SoundRules src rules) (mode : Mode) :
    Reads src (Sound src) (arrow rules mode) := by
  refine .after .start fun a => .after (.acceptWord _) fun _ => ?_
  refine .bind (.optionalTypeParameters h) fun ts hts => ?_
  refine .bind (.formalParameters h) fun ps hps => ?_
  refine .bind (.optionalResult h) fun r hr => .bind (.arrowTail h mode) fun b hb => ?_
  refine .after (.at? _) fun _ => .after (.guardThat _) fun _ => ?_
  exact .close nofun (by simp [hts, hps, hr, hb])

theorem methodTail (h : SoundRules src rules) : Reads src (AllSound src) (methodTail rules) :=
  .bind (.signature h) fun s hs => .bind (.functionBody h) fun b hb => .pure (by simp [hs, hb])

/-! ## Classes -/

theorem classHeritage (h : SoundRules src rules) :
    Reads src (AllSound src) (classHeritage rules) := by
  refine .after .start fun a => .after (.acceptWord _) fun _ => ?_
  extract_lets go
  have hgo (base : List Tree) (hbase : AllSound src base) :
      Reads src (AllSound src) (go base) := by
    refine .after (.acceptTypedWord _) fun _ => ?_
    extract_lets finish
    have hfinish (types : List Tree) (htypes : AllSound src types) :
        Reads src (AllSound src) (finish types) := by
      refine .ite (.pure allSound_nil) (.bind (.close nofun ?_) fun t ht => .pure ?_)
      · simp [hbase, htypes]
      · simpa using ht
    exact .ite (.bind (.commaList (h.sound _)) hfinish) (hfinish [] allSound_nil)
  refine .ite (.bind (h.sound _) fun e he => ?_) (hgo [] allSound_nil)
  refine .after .isTyped fun _ => .after (.at? _) fun _ => ?_
  exact .maybe (.typeArguments h) fun ts hts => hgo (e :: ts) (by simp [he, hts])

theorem modifiesMember (w : String) : Reads src (fun _ => True) (modifiesMember w) :=
  .after .ahead fun _ => .pure trivial

theorem memberModifierRun : Reads src (fun _ => True) memberModifierRun := by
  refine .after .isTyped fun _ => .skips (.after .token fun t => ?_)
  split
  · refine .after (.modifiesMember _) fun _ => .ite ?_ (.pure trivial)
    exact .after .advance fun _ => .pure trivial
  · exact .pure trivial

theorem fieldTail (h : SoundRules src rules) : Reads src (AllSound src) (fieldTail rules) := by
  refine .bind (.optionalDeclaredType h) fun t ht => .after (.accept _) fun _ => ?_
  refine .maybe_role (h.sound _) fun v hv => .after .semicolon fun _ => .pure ?_
  simp [ht, hv]

theorem classMethodTail (h : SoundRules src rules) :
    Reads src (AllSound src) (classMethodTail rules) := by
  refine .bind (.signature h) fun s hs => .after .isTyped fun _ => .after (.at? _) fun _ => ?_
  refine .ite (.after .semicolon fun _ => .pure hs) ?_
  exact .bind (.functionBody h) fun b hb => .pure (by simp [hs, hb])

theorem classMember (h : SoundRules src rules) : Reads src (Sound src) (classMember rules) := by
  refine .after .start fun a => .bind (.decorators h) fun ds hds => ?_
  refine .after (.atWord _) fun _ => .after .ahead fun _ => .ite ?_ ?_
  · refine .after .advance fun _ => .bind (h.sound _) fun b hb => ?_
    exact .close nofun (by simp [hds, hb])
  · refine .after .memberModifierRun fun words => .after (.guardThat _) fun _ => ?_
    extract_lets index go
    have hindex : Reads src (Sound src) index :=
      .bind (.indexSignature h) fun s hs => .after .semicolon fun _ => .pure hs
    have hgo (indexed : Option Tree) (hindexed : ∀ s ∈ indexed, Sound src s) :
        Reads src (Sound src) (go indexed) := by
      cases indexed with
      | some s => exact .close nofun (by simp [hds, hindexed s rfl])
      | none =>
        refine .after (.accept _) fun generator => .bind (.memberKey h) fun k hk => ?_
        refine .after .isTyped fun _ => ?_
        extract_lets key tail
        have hkey : Sound src key := sound_withRole.mpr hk
        have htail (u : Unit) : Reads src (Sound src) (tail u) := by
          refine .after (.at? _) fun _ => .after .isTyped fun _ => ?_
          refine .after (.at? _) fun _ => .ite ?_ ?_
          · exact .bind (.classMethodTail h) fun m hm => .close nofun (by simp [hds, hkey, hm])
          · refine .after (.guardThat _) fun _ => .bind (.fieldTail h) fun f hf => ?_
            exact .close nofun (by simp [hds, hkey, hf])
        refine .ite (.after (.accept _) fun _ => .ite ?_ (htail ())) (htail ())
        exact .after (.accept _) fun _ => htail ()
    refine .after .isTyped fun _ => .after (.at? _) fun _ => ?_
    exact .ite (.bind (.attempt hindex) hgo) (hgo none (by simp))

theorem classBody (h : SoundRules src rules) : Reads src (Sound src) (classBody rules) := by
  refine .after .start fun a => .after (.expect _) fun _ => ?_
  refine .bind (.repeated (P := AllSound src) ?_) fun ms hms => .after (.expect _) fun _ => ?_
  · refine .after (.at? _) fun _ => .ite (.pure (by simp)) ?_
    refine .after (.accept _) fun _ => .ite (.pure (by simp)) ?_
    exact .bind (.classMember h) fun m hm => .pure (by simp [hm])
  · refine .close nofun fun t ht => ?_
    obtain ⟨ts, hts, ht⟩ := List.mem_flatten.mp ht
    exact hms ts hts t ht

theorem classTail (h : SoundRules src rules) {ds : List Tree} (hk : k ≠ .newExpression)
    (hname : k ≠ .identifier) (hmember : k ≠ .memberExpression) (hds : AllSound src ds)
    (nameNeeded : Bool) : Reads src (Other src) (classTail rules k a ds nameNeeded) := by
  refine .after (.expectWord _) fun _ => .after .token fun t => ?_
  extract_lets go goNamed
  have hgo (n : List Tree) (hn : AllSound src n) : Reads src (Other src) (go n) := by
    refine .bind (.optionalTypeParameters h) fun ts hts => .bind (.classHeritage h) fun hs hhs => ?_
    refine .bind (.classBody h) fun b hb => .close_other hk hname hmember ?_
    simp [hds, hn, hts, hhs, hb]
  have hnamed (named : Bool) : Reads src (Other src) (goNamed named) :=
    .maybe_role .identifier hgo
  split
  · exact .after .isTyped fun _ => hnamed _
  · exact hnamed _

theorem classExpression (h : SoundRules src rules) :
    Reads src (Other src) (classExpression rules) :=
  .after .start fun _ => .bind (.decorators h) fun _ hds =>
    .classTail (k := .classExpression) h nofun nofun nofun hds _

theorem classDeclaration (h : SoundRules src rules) :
    Reads src (Sound src) (classDeclaration rules) := by
  have htail {k : Kind} (hk : k = .classDeclaration ∨ k = .abstractClassDeclaration) (a : Nat)
      {ds : List Tree} (hds : AllSound src ds) :
      Reads src (Sound src) (Grammar.classTail rules k a ds true) := by
    rcases hk with rfl | rfl
    · exact (Reads.classTail (k := .classDeclaration) h nofun nofun nofun hds _).mono
        fun _ ht => ht.sound
    · exact (Reads.classTail (k := .abstractClassDeclaration) h nofun nofun nofun hds _).mono
        fun _ ht => ht.sound
  refine .after .start fun a => .bind (.decorators h) fun ds hds => ?_
  exact .after (.acceptTypedWord _) fun _ => .ite (htail (.inr rfl) a hds) (htail (.inl rfl) a hds)

/-! ## Literals -/

theorem spreadElement (h : SoundRules src rules) :
    Reads src (Sound src) (spreadElement rules) := by
  refine .after .start fun a => .after (.expect _) fun _ => .bind (h.sound _) fun e he => ?_
  exact .close nofun (by simp [he])

theorem argument (h : SoundRules src rules) : Reads src (Sound src) (argument rules) :=
  .after (.at? _) fun _ => .ite (.spreadElement h) (h.sound _)

theorem arrayLiteral (h : SoundRules src rules) : Reads src (Other src) (arrayLiteral rules) := by
  refine .after .start fun a => .after (.expect _) fun _ => ?_
  exact .bind (.sparseList (.argument h)) fun es hes => .close_other nofun nofun nofun hes

theorem modifiesProperty (w : String) : Reads src (fun _ => True) (modifiesProperty w) :=
  .after .ahead fun _ => .pure trivial

theorem objectMember (h : SoundRules src rules) : Reads src (Sound src) (objectMember rules) := by
  refine .after (.at? _) fun _ => .ite (.spreadElement h) (.after .start fun a => ?_)
  refine .after .token fun t => ?_
  extract_lets go
  have hgo (modified : Bool) : Reads src (Sound src) (go modified) := by
    refine .after (.accept _) fun generator => .after .token fun _ => ?_
    refine .bind (.memberKey h) fun k hk => .after (.at? _) fun _ => .after .isTyped fun _ => ?_
    refine .after (.at? _) fun _ => .ite ?_ ?_
    · exact .bind (.methodTail h) fun m hm => .close nofun (by simp [hk, hm])
    · refine .after (.guardThat _) fun _ => .after (.accept _) fun _ => .ite ?_ ?_
      · exact .bind (h.sound _) fun v hv => .close nofun (by simp [hk, hv])
      · have hn : Sound src (k.withKind .shorthandName) := sound_withKind nofun hk
        refine .after (.guardThat _) fun _ => .after (.accept _) fun _ => .ite ?_ (.pure hn)
        exact .bind (h.sound _) fun v hv => .close nofun (by simp [hn, hv])
  split
  · refine .after (.modifiesProperty _) fun _ => .ite ?_ (hgo _)
    exact .after .advance fun _ => hgo _
  · exact hgo _

theorem objectLiteral (h : SoundRules src rules) : Reads src (Other src) (objectLiteral rules) := by
  refine .after .start fun a => .after (.expect _) fun _ => ?_
  exact .bind (.listUntil (.objectMember h)) fun ms hms => .close_other nofun nofun nofun hms

end Reads

theorem afterRegexBody_suffix {cs ds : List Char} {b : Bool} (h : afterRegexBody cs b = some ds) :
    ds <:+ cs := by
  fun_induction afterRegexBody cs b with
  | case1 => cases h
  | case2 => cases h
  | case3 _ _ _ _ ih => exact (ih h).trans ((List.suffix_cons _ _).trans (List.suffix_cons _ _))
  | case4 => cases h
  | case5 =>
    cases h
    exact List.suffix_cons _ _
  | case6 =>
    rename_i ih
    exact (ih h).trans (List.suffix_cons _ _)

theorem eats_suffix {cs ds : List Char} (n : Nat) (h : ds <:+ cs) :
    Eats cs n ds (n + width (cs.take (cs.length - ds.length))) := by
  obtain ⟨word, rfl⟩ := h
  rw [List.length_append, Nat.add_sub_cancel_right, List.take_left]
  exact eats_append word ds n

mutual

theorem sound_toPattern {src : List Char} {t p : Tree} (h : toPattern? t = some p)
    (ht : Sound src t) : Sound src p := by
  unfold toPattern? at h
  split at h
  · obtain ⟨ps, hps, rfl⟩ := Option.map_eq_some_iff.mp h
    exact sound_of_children nofun (allSound_toPatterns hps ht.children)
  · obtain ⟨ps, hps, rfl⟩ := Option.map_eq_some_iff.mp h
    exact sound_of_children nofun (allSound_toPatterns hps ht.children)
  · obtain ⟨ps, hps, rfl⟩ := Option.map_eq_some_iff.mp h
    exact sound_of_children nofun (allSound_toPatterns hps ht.children)
  · obtain ⟨w, hw, rfl⟩ := Option.map_eq_some_iff.mp h
    have hkids := ht.children
    simp only [Tree.children, allSound_cons, allSound_nil, and_true] at hkids
    exact sound_of_children nofun (by simp [hkids.1, sound_toPattern hw hkids.2])
  · cases h
    exact sound_of_children nofun ht.children
  · cases h
    exact ht
  · cases h
    exact ht
  · split at h
    · cases h
      exact ht
    · cases h

theorem allSound_toPatterns {src : List Char} {ts ps : List Tree} (h : toPatterns? ts = some ps)
    (hts : AllSound src ts) : AllSound src ps := by
  unfold toPatterns? at h
  split at h
  · cases h
    exact allSound_nil
  · simp only [bind, Option.bind_eq_some_iff] at h
    obtain ⟨p, hp, qs, hqs, hcons⟩ := h
    cases hcons
    rw [allSound_cons] at hts ⊢
    exact ⟨sound_toPattern hp hts.1, allSound_toPatterns hqs hts.2⟩

end

namespace Reads

variable {src : List Char} {rules : Rules} {a : Nat}

theorem regexLiteral : Reads src (Other src) regexLiteral := by
  refine .bind .here fun c hc => ?_
  split
  · exact .failure
  · rename_i cs hbody
    have hrest : cs.dropWhile continuesName <:+ c.here :=
      (List.dropWhile_suffix _).trans ((afterRegexBody_suffix hbody).trans (List.drop_suffix _ _))
    refine .after (.set (hc.jump_here (eats_suffix _ hrest))) fun _ => ?_
    exact .close_other nofun nofun nofun allSound_nil

/-! ## Declarations -/

theorem declaratorHead (h : SoundRules src rules) :
    Reads src (AllSound src) (declaratorHead rules) := by
  refine .bind (h.sound _) fun n hn => .after .isTyped fun _ => ?_
  extract_lets go
  have hgo (u : Unit) : Reads src (AllSound src) (go u) :=
    .bind (.optionalDeclaredType h) fun t ht => .pure (by simp [hn, ht])
  exact .ite (.after (.accept _) fun _ => hgo ()) (hgo ())

theorem declaratorFrom (h : SoundRules src rules) {head : List Tree} (hhead : AllSound src head)
    (noIn : Bool) : Reads src (Sound src) (declaratorFrom rules a head noIn) := by
  refine .after (.accept _) fun _ => .maybe_role (h.sound _) fun v hv => ?_
  exact .close nofun (by simp [hhead, hv])

theorem declarator (h : SoundRules src rules) (noIn : Bool) :
    Reads src (Sound src) (declarator rules noIn) :=
  .after .start fun _ => .bind (.declaratorHead h) fun _ hhead => .declaratorFrom h hhead noIn

theorem atVariables : Reads src (fun _ => True) atVariables := by
  refine .after .token fun t => ?_
  split
  · refine .ite (.after .ahead fun next => ?_) (.pure trivial)
    split <;> exact .pure trivial
  · exact .pure trivial

theorem variableKind_ne (w : String) : variableKind w ≠ .newExpression := by
  unfold variableKind
  split <;> nofun

theorem variableStatement (h : SoundRules src rules) :
    Reads src (Sound src) (variableStatement rules) := by
  refine .after .start fun a => .after .token fun t => ?_
  split
  · refine .after .advance fun _ => .bind (.commaList (.declarator h false)) fun ds hds => ?_
    exact .after .semicolon fun _ => .close (variableKind_ne _) hds
  · exact .failure

theorem typeAlias (h : SoundRules src rules) : Reads src (Sound src) (typeAlias rules) := by
  refine .after .start fun a => .after (.expectWord _) fun _ => .bind .identifier fun n hn => ?_
  refine .bind (.optionalTypeParameters h) fun ts hts => .after (.expect _) fun _ => ?_
  exact .bind (h.sound _) fun t ht => .closeStatement nofun (by simp [hn, hts, ht])

theorem interface (h : SoundRules src rules) : Reads src (Sound src) (interface rules) := by
  refine .after .start fun a => .after (.expectWord _) fun _ => .bind .identifier fun n hn => ?_
  refine .bind (.optionalTypeParameters h) fun ts hts => .after (.acceptWord _) fun _ => ?_
  extract_lets go
  have hgo (hs : List Tree) (hhs : AllSound src hs) : Reads src (Sound src) (go hs) :=
    .bind (.objectType h) fun b hb => .close nofun (by simp [hn, hts, hhs, hb])
  exact .ite (.bind (.commaList (h.sound _)) hgo) (hgo [] allSound_nil)

theorem enumMember (h : SoundRules src rules) : Reads src (Sound src) (enumMember rules) := by
  refine .after .start fun a => .bind (.memberKey h) fun k hk => .after (.accept _) fun _ => ?_
  exact .maybe (h.sound _) fun v hv => .close nofun (by simp [hk, hv])

theorem enumeration (h : SoundRules src rules) : Reads src (Sound src) (enumeration rules) := by
  refine .after .start fun a => .after (.acceptWord _) fun _ => .after (.expectWord _) fun _ => ?_
  refine .bind .identifier fun n hn => .after (.expect _) fun _ => ?_
  refine .bind (.listUntil (.enumMember h)) fun ms hms => .close nofun ?_
  simp [hn, show AllSound src ms from hms]

theorem namespaceDeclaration (h : SoundRules src rules) :
    Reads src (Sound src) (namespaceDeclaration rules) := by
  refine .after .start fun a => .after (.acceptWord _) fun _ => .ite ?_ ?_
  · exact .bind (h.sound _) fun b hb => .close nofun (by simp [hb])
  · refine .after (.acceptWord _) fun _ => ?_
    extract_lets go
    have hgo (u : Unit) : Reads src (Sound src) (go u) := by
      refine .after .token fun t => ?_
      split
      · refine .bind (.leaf nofun) fun n hn => .after (.at? _) fun _ => .ite ?_ ?_
        · exact .bind (h.sound _) fun b hb => .close nofun (by simp [hn, hb])
        · exact .after .semicolon fun _ => .close nofun (by simp [hn])
      · refine .bind .identifier fun n hn => .bind (.pointedNames nofun) fun ns hns => ?_
        exact .bind (h.sound _) fun b hb => .close nofun (by simp [hn, hns, hb])
    exact .ite (.after (.expectWord _) fun _ => hgo ()) (hgo ())

theorem atTypedDeclaration : Reads src (fun _ => True) atTypedDeclaration := by
  refine .after .isTyped fun _ => .ite (.pure trivial) (.after .ahead fun next => ?_)
  refine .after .token fun t => ?_
  split
  · exact .ite (.pure trivial) (.ite (.pure trivial) (.ite (.pure trivial) (.ite (.pure trivial)
      (.ite (.pure trivial) (.ite (.pure trivial) (.ite (.pure trivial) (.ite (.pure trivial)
        (.pure trivial))))))))
  · exact .pure trivial

theorem typedDeclaration (h : SoundRules src rules) :
    Reads src (Sound src) (typedDeclaration rules) := by
  refine .after .start fun a => .after .token fun t => ?_
  split
  · exact .typeAlias h
  · exact .interface h
  · exact .enumeration h
  · exact .enumeration h
  · exact .classDeclaration h
  · refine .after .advance fun _ => .bind (h.sound _) fun d hd => .after (.guardThat _) fun _ => ?_
    exact .close nofun (by simp [hd])
  · exact .namespaceDeclaration h
  · exact .failure

end Reads

end SceneSync.Script
