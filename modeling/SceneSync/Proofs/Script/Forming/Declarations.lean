import Mathlib
import SceneSync.Proofs.Script.Forming.Functions
import SceneSync.Proofs.Script.Reading.Declarations

/-!
# Forming literals and declarations

The rules for literals and declarations give formed trees, if the goals that they open do,
and a literal that is read as a pattern keeps its form.
-/

namespace SceneSync.Script

open Script.Parser Script.Tree Grammar

variable {src : List Char} {dialect : Dialect} {rules : Rules} {r : Reach} {t p : Tree}
  {ts ps : List Tree} {ρ : Role} {k : Kind} {a n : Nat}

/-! ## Literals -/

namespace Yields

theorem spreadElement (h : FormingRules src dialect rules) :
    Yields src dialect .firm Usual (spreadElement rules) := by
  refine .start fun a => .take (.expect _) fun _ => .child (h (.assignment .usual)) fun e _ => ?_
  exact .close rfl (by simp)

theorem argument (h : FormingRules src dialect rules) :
    Yields src dialect .firm Usual (argument rules) :=
  .look (.at? _) fun _ => .ite (.spreadElement h) (h (.assignment .usual))

theorem arrayLiteral (h : FormingRules src dialect rules) :
    Yields src dialect .firm Usual (arrayLiteral rules) := by
  refine .start fun a => .take (.expect _) fun _ => ?_
  exact .children (.sparseList (.argument h)) fun es _ => .close rfl (by simp)

end Yields

theorem Looks.modifiesProperty (w : String) : Looks (modifiesProperty w) :=
  .bind .ahead fun _ => .pure _

namespace Yields

theorem objectMember (h : FormingRules src dialect rules) :
    Yields src dialect .firm Usual (objectMember rules) := by
  refine .look (.at? _) fun _ => .ite (.spreadElement h) (.starting fun a => .token fun x => ?_)
  extract_lets go
  have hmethod {k : Tree} : Leads src (Laid src dialect a .firm [k])
      (Whole src dialect a .firm Usual) (do
        let m ← Grammar.methodTail rules
        Parser.close .methodDefinition a (k.withRole .name :: m)) :=
    .children (.methodTail h) fun m _ => .close rfl (by simp)
  -- behind a modifier or a star only a method may follow
  have hmodified : Leads src (Laid src dialect a .firm []) (Whole src dialect a .firm Usual)
      (go true) := by
    refine .move (.accept _) fun generator => .look .token fun _ => .child (memberKey h) fun k _ => ?_
    refine .look (.at? _) fun _ => .look .isTyped fun _ => .look (.at? _) fun _ => .ite hmethod ?_
    exact .guardThat fun hplain => by simp at hplain
  have hplain : Leads src (Starts src dialect a) (Whole src dialect a .firm Usual) (go false) := by
    refine .startsAccept ?_ (.token fun x => .bind (memberKey_at h a x) fun k => ?_)
    · refine .look .token fun _ => .child (memberKey h) fun k _ => ?_
      refine .look (.at? _) fun _ => .look .isTyped fun _ => .look (.at? _) fun _ => .ite hmethod ?_
      exact .guardThat fun hplain => by simp at hplain
    · refine .look (.at? _) fun _ => .look .isTyped fun _ => .look (.at? _) fun _ => ?_
      refine .ite (.behind hmethod) (.guardThat fun _ => .goesOn ?_ (.guardThat fun hname => ?_))
      · exact .child (h (.assignment .usual)) fun v _ => .close rfl (by simp)
      · refine .shorthand (by simpa using hname) (.goesOn ?_ (.result id))
        exact .child (h (.assignment .usual)) fun v _ => .close rfl (by simp)
  split
  · refine .look (.modifiesProperty _) fun _ => .ite (.startSeen (.advance rfl hmodified)) ?_
    exact .forget hplain
  · exact .forget hplain

theorem objectLiteral (h : FormingRules src dialect rules) :
    Yields src dialect .firm Usual (objectLiteral rules) := by
  refine .start fun a => .take (.expect _) fun _ => ?_
  exact .children (.listUntil (.objectMember h)) fun ms _ => .close rfl (by simp)

end Yields

/-- Another kind and other parts that stand where the parts stood. -/
theorem Formed.rebuilt {j : Kind} (ht : Formed src dialect (.node ρ k a n ts))
    (hparts : Parts src dialect j a n ps) (hps : ∀ p ∈ ps, Formed src dialect p)
    (hordered : Ordered a n ts → Ordered a n ps) : Formed src dialect (.node ρ j a n ps) := by
  obtain ⟨horder, hshape, -⟩ := formed_node.mp ht
  exact formed_node.mpr ⟨hordered horder, ⟨hshape.start, hshape.stop, hparts⟩, hps⟩

mutual

/-- A pattern stands where its literal stood. -/
theorem formed_toPattern {src : List Char} {dialect : Dialect} {t p : Tree}
    (h : toPattern? t = some p) (ht : Formed src dialect t) :
    Formed src dialect p ∧ p.start = t.start ∧ p.stop = t.stop := by
  unfold toPattern? at h
  split at h
  · obtain ⟨ps, hps, rfl⟩ := Option.map_eq_some_iff.mp h
    have hpatterns := formed_toPatterns hps ht.children
    exact ⟨ht.rebuilt trivial hpatterns.1 (hpatterns.2 _ _), rfl, rfl⟩
  · obtain ⟨ps, hps, rfl⟩ := Option.map_eq_some_iff.mp h
    have hpatterns := formed_toPatterns hps ht.children
    exact ⟨ht.rebuilt trivial hpatterns.1 (hpatterns.2 _ _), rfl, rfl⟩
  · obtain ⟨ps, hps, rfl⟩ := Option.map_eq_some_iff.mp h
    have hpatterns := formed_toPatterns hps ht.children
    exact ⟨ht.rebuilt trivial hpatterns.1 (hpatterns.2 _ _), rfl, rfl⟩
  · obtain ⟨w, hw, rfl⟩ := Option.map_eq_some_iff.mp h
    have hkids := ht.children
    simp only [Tree.children, List.forall_mem_cons] at hkids
    obtain ⟨hk, hv, -⟩ := hkids
    have hpattern := formed_toPattern hw hv
    refine ⟨ht.rebuilt trivial (by simpa using ⟨hk, hpattern.1⟩) fun horder => ?_, rfl, rfl⟩
    obtain ⟨hle, hnested, hmore, -, hstop⟩ := horder
    exact ⟨hle, hnested, hpattern.2.1 ▸ hmore, hpattern.1.nested, hpattern.2.2 ▸ hstop⟩
  · cases h
    exact ⟨ht.rebuilt trivial ht.children id, rfl, rfl⟩
  · cases h
    exact ⟨ht, rfl, rfl⟩
  · cases h
    exact ⟨ht, rfl, rfl⟩
  · split at h
    · cases h
      exact ⟨ht, rfl, rfl⟩
    · cases h

theorem formed_toPatterns {src : List Char} {dialect : Dialect} {ts ps : List Tree}
    (h : toPatterns? ts = some ps) (hts : ∀ t ∈ ts, Formed src dialect t) :
    (∀ p ∈ ps, Formed src dialect p) ∧ ∀ a n, Ordered a n ts → Ordered a n ps := by
  unfold toPatterns? at h
  split at h
  · cases h
    exact ⟨by simp, fun _ _ => id⟩
  · simp only [bind, Option.bind_eq_some_iff] at h
    obtain ⟨p, hp, qs, hqs, hcons⟩ := h
    cases hcons
    rw [List.forall_mem_cons] at hts
    have hfirst := formed_toPattern hp hts.1
    have hrest := formed_toPatterns hqs hts.2
    refine ⟨List.forall_mem_cons.mpr ⟨hfirst.1, hrest.1⟩, fun a n h => ?_⟩
    exact ⟨hfirst.2.1 ▸ h.1, hfirst.1.nested, hfirst.2.2 ▸ hrest.2 _ _ h.2.2⟩

end

theorem Leads.regexLiteral {x : Token} (hreal : x.isReal = true) :
    Leads src (fun c => Starts src dialect a c ∧ c.token = x)
      (Whole src dialect a .firm (IsToken .regex)) regexLiteral := by
  rintro c ⟨⟨hc, rfl⟩, rfl⟩
  refine .look (g := id) ?_
  split
  · nofun
  · rename_i cs hbody
    change afterRegexBody (c.here.drop 1) false = some cs at hbody
    have hrest : cs.dropWhile continuesName <:+ c.here.drop 1 :=
      (List.dropWhile_suffix _).trans (afterRegexBody_suffix hbody)
    have hjump := hc.jump_here (eats_suffix c.start (hrest.trans (List.drop_suffix 1 c.here)))
    -- at least the slash is taken
    have htaken : c.here.take (c.here.length - (cs.dropWhile continuesName).length) ≠ [] := by
      have hne : c.here ≠ [] := by
        rintro hnil
        rw [hnil] at hbody
        cases hbody
      have hlength := hrest.length_le
      rw [List.length_drop] at hlength
      have hpos := List.length_pos_iff.mpr hne
      simp only [ne_eq, List.take_eq_nil_iff, hne, or_false]
      omega
    have hpast : Begun src c.start (c.start + width _) :=
      ⟨(hc.begun hreal).solid, Nat.lt_add_of_pos_right (width_pos htaken)⟩
    refine .set (Leads.closeShaped (k := .regex) (r := .firm) nofun rfl (fun _ _ => trivial) ?_ _
      (hc.starts.laid.take hjump (by simpa using hpast)))
    exact fun _ => ⟨⟨rfl, nofun⟩, rfl, rfl⟩

/-! ## Declarations -/

theorem Lists.declaratorHead (h : FormingRules src dialect rules) :
    Lists src dialect r .firm (fun _ => True) (declaratorHead rules) := by
  refine fun a ts => .child (h .pattern) fun n _ => .look .isTyped fun _ => ?_
  extract_lets go
  have hgo (u : Unit) : Leads src (Laid src dialect a .firm (ts ++ [n]))
      (fun us d => Laid src dialect a .firm (ts ++ us) d ∧ ∀ u ∈ us, True) (go u) :=
    .children (.optionalDeclaredType h) fun t _ => .results (by simp) fun _ _ => trivial
  exact .ite (.move (.accept _) fun _ => hgo ()) (hgo ())

theorem Leads.declaratorFrom (h : FormingRules src dialect rules) (noIn : Bool) :
    Leads src (Laid src dialect a .firm ts) (Whole src dialect a .firm Usual)
      (declaratorFrom rules a ts noIn) := by
  refine .move (.accept _) fun _ => .maybeAs (h (.assignment ⟨noIn, false⟩)) fun v _ => ?_
  exact .close rfl (by simp)

theorem Yields.declarator (h : FormingRules src dialect rules) (noIn : Bool) :
    Yields src dialect .firm Usual (declarator rules noIn) :=
  .start fun _ => .children (.declaratorHead h) fun _ _ => .declaratorFrom h noIn

theorem Looks.atVariables : Looks atVariables := by
  refine .bind .token fun x => ?_
  split
  · refine .ite (.bind .ahead fun next => ?_) (.pure _)
    split <;> exact .pure _
  · exact .pure _

theorem isFree_variableKind (w : String) : isFree (variableKind w) = true := by
  unfold variableKind
  split <;> rfl

namespace Yields

theorem variableStatement (h : FormingRules src dialect rules) :
    Yields src dialect .firm Usual (variableStatement rules) := by
  refine .start fun a => .token fun x => ?_
  split
  · refine .advance rfl (.children (.commaList (.declarator h false)) fun ds _ => ?_)
    exact .move .semicolon fun _ => .close (isFree_variableKind _) (by simp)
  · exact .failure

theorem typeAlias (h : FormingRules src dialect rules) :
    Yields src dialect .loose Usual (typeAlias rules) := by
  refine .start fun a => .take (.expectWord _) fun _ => .child .identifier fun n hn => ?_
  refine .children (.optionalTypeParameters h) fun ts hts => .take (.expect _) fun _ => ?_
  refine .child (h .type) fun t ht => .closeStatement (by simp) (fun b _ c hc hname => ?_)
    fun _ => ⟨rfl, nofun⟩
  have hparts : ∀ c ∈ n.withRole .name :: ts ++ [t], PartOfFunction c := by
    simp only [List.cons_append, List.forall_mem_cons, List.forall_mem_append]
    exact ⟨hn.partOfFunction, fun u hu => (hts u hu).partOfFunction, ht.partOfFunction, nofun⟩
  exact (hparts c hc).name hname

theorem interface (h : FormingRules src dialect rules) :
    Yields src dialect .firm Usual (interface rules) := by
  refine .start fun a => .take (.expectWord _) fun _ => .child .identifier fun n _ => ?_
  refine .children (.optionalTypeParameters h) fun ts _ => .move (.acceptWord _) fun _ => ?_
  extract_lets go
  have hgo (hs : List Tree) : Leads src (Laid src dialect a .firm ([] ++ [n] ++ ts ++ hs))
      (Whole src dialect a .firm Usual) (go hs) :=
    .child (.objectType h) fun b _ => .close rfl (by simp)
  exact .ite (.children (.commaList (h .typeOperand)) fun hs _ => hgo hs) (by simpa using hgo [])

theorem enumMember (h : FormingRules src dialect rules) :
    Yields src dialect .firm Usual (enumMember rules) := by
  refine .start fun a => .child (.memberKey h) fun k _ => .move (.accept _) fun _ => ?_
  exact .maybe (h (.assignment .usual)) fun v _ => .close rfl (by simp)

theorem enumeration (h : FormingRules src dialect rules) :
    Yields src dialect .firm Usual (enumeration rules) := by
  refine .start fun a => .move (.acceptWord _) fun _ => .take (.expectWord _) fun _ => ?_
  refine .child .identifier fun n _ => .take (.expect _) fun _ => ?_
  exact .children (.listUntil (.enumMember h)) fun ms _ => .close rfl (by simp)

theorem namespaceDeclaration (h : FormingRules src dialect rules) :
    Yields src dialect .firm Usual (namespaceDeclaration rules) := by
  refine .start fun a => .move (.acceptWord _) fun _ => .ite ?_ ?_
  · exact .child (h .block) fun b _ => .close rfl (by simp)
  · refine .move (.acceptWord _) fun _ => ?_
    extract_lets go
    have hgo {r : Reach} (u : Unit) : Leads src (Laid src dialect a r [])
        (Whole src dialect a .firm Usual) (go u) := by
      refine .token fun x => ?_
      split
      · refine .leafChild (fun n _ => .look (.at? _) fun _ => .ite ?_ ?_) rfl rfl
        · exact .child (h .block) fun b _ => .close rfl (by simp)
        · exact .move .semicolon fun _ => .close rfl (by simp)
      · refine .forget (.child .identifier fun n _ => ?_)
        refine .children (.behindEach (.anyName rfl)) fun ns _ => ?_
        exact .child (h .block) fun b _ => .close rfl (by simp)
    exact .ite (.take (.expectWord _) fun _ => hgo ()) (hgo ())

end Yields

theorem Looks.atTypedDeclaration : Looks atTypedDeclaration := by
  refine .bind .isTyped fun _ => .ite (.pure _) (.bind .ahead fun next => .bind .token fun x => ?_)
  split
  · exact .ite (.pure _) (.ite (.pure _) (.ite (.pure _) (.ite (.pure _) (.ite (.pure _)
      (.ite (.pure _) (.ite (.pure _) (.ite (.pure _) (.pure _))))))))
  · exact .pure _

theorem Yields.typedDeclaration (h : FormingRules src dialect rules) :
    Yields src dialect .loose Usual (typedDeclaration rules) := by
  refine .starting fun a => .token fun x => ?_
  split
  · exact .forget (Yields.typeAlias h a)
  · exact .forget (Yields.loosen (.interface h) a)
  · exact .forget (Yields.loosen (.enumeration h) a)
  · exact .forget (Yields.loosen (.enumeration h) a)
  · exact .forget (Yields.loosen (.classDeclaration h) a)
  · refine .startSeen (.advance rfl (.child (h .statement) fun d _ => ?_))
    exact .look (.guardThat _) fun _ => .closeLoose rfl (by simp)
  · exact .forget (Yields.loosen (.namespaceDeclaration h) a)
  · exact .failure

end SceneSync.Script
