import Mathlib
import SceneSync.Proofs.Script.Forming.Patterns

/-!
# Forming composite types

The rules for function types, object types and the operators between types give formed
trees, if the goals that they open do.
-/

namespace SceneSync.Script

open Script.Parser Grammar

variable {src : List Char} {dialect : Dialect} {rules : Rules} {r : Reach}

/-! ## Functions and members -/

theorem Yields.functionType (h : FormingRules src dialect rules) :
    Yields src dialect .firm Usual (functionType rules) := by
  refine .start fun a => .move (.acceptWord _) fun _ => .move (.acceptWord _) fun _ => ?_
  refine .look (.at? _) fun _ => .maybe (Yields.typeParameters h).loosen fun ts _ => ?_
  refine .child (.formalParameters h) fun ps _ => .take (.expect _) fun _ => ?_
  exact .child (.resultType h) fun r _ => .close rfl (by simp)

theorem Lists.signatureTail (h : FormingRules src dialect rules) :
    Lists src dialect r .firm Usual (signatureTail rules) := by
  refine fun a ts => .look (.at? _) fun _ => .maybe (Yields.typeParameters h).loosen fun us hus => ?_
  refine .child (.formalParameters h) fun ps hps => .children (.optionalResult h) fun r hr => ?_
  refine .results (by simp) fun u hu => ?_
  simp only [List.mem_append, List.mem_cons] at hu
  rcases hu with hu | rfl | hu
  · exact hus u hu
  · exact hps.1
  · exact hr u hu

namespace Yields

theorem indexSignature (h : FormingRules src dialect rules) :
    Yields src dialect .firm Usual (indexSignature rules) := by
  refine .start fun a => .move (.acceptOneOf _) fun _ => .move (.acceptWord _) fun _ => ?_
  refine .take (.expect _) fun _ => .child (.anyName rfl) fun k _ => ?_
  refine .move (.acceptWord _) fun _ => ?_
  extract_lets go
  have hgo (key : List Tree) : Leads src (Laid src dialect a .firm ([] ++ [k] ++ key))
      (Whole src dialect a .firm Usual) (go key) := by
    refine .take (.expect _) fun _ => .move (.acceptOneOf _) fun _ => ?_
    refine .move (.accept _) fun _ => .children (.optionalDeclaredType h) fun t _ => ?_
    exact .close rfl (by simp)
  refine .ite ?_ (.child (.declaredType h) fun t _ => hgo [t])
  refine .child (h .type) fun t _ => .move (.acceptWord _) fun _ => ?_
  refine .maybe (h .type) fun r _ => ?_
  simpa using hgo (t :: r)

theorem objectTypeMember (h : FormingRules src dialect rules) :
    Yields src dialect .firm Usual (objectTypeMember rules) := by
  refine .starting fun a => ?_
  extract_lets other go
  have hother : Leads src (Laid src dialect a .fresh []) (Whole src dialect a .firm Usual) other := by
    refine .look (.at? _) fun _ => .look (.at? _) fun _ => .ite ?_ ?_
    · exact .children (.signatureTail h) fun s _ => .close rfl (by simp)
    · refine .move (.repeated fun c hc => ?_) fun modified => .ite ?_ ?_
      · have hnone : ReadsAt src c _ (Pure.pure none : Parser (Option Bool)) := Moves.pure none c hc
        refine .look ?_
        split
        · rename_i hname
          have hreal : c.token.isReal = true := by rw [hname]; rfl
          refine .ite (fun _ => .lookAt .ahead fun next => ?_) fun _ => hnone
          split
          · exact .guardThat fun _ => hc.taken hreal
          · exact .guardThat fun _ => hc.taken hreal
          · exact .guardThat fun _ => hc.taken hreal
          · exact .guardThat fun _ => hc.taken hreal
          · exact .ite (fun _ => hc.taken hreal) fun _ => hnone
          · exact .ite (fun _ => hc.taken hreal) fun _ => hnone
          · exact hnone
        · exact hnone
      · exact .children (.signatureTail h) fun s _ => .close rfl (by simp)
      · refine .child (.memberKey h) fun k _ => .move (.accept _) fun _ => ?_
        refine .look (.at? _) fun _ => .look (.at? _) fun _ => .ite ?_ ?_
        · exact .children (.signatureTail h) fun s _ => .close rfl (by simp)
        · exact .children (.optionalDeclaredType h) fun t _ => .close rfl (by simp)
  have hgo (m : Tree) : Leads src (Whole src dialect a .firm Usual m)
      (Whole src dialect a .firm Usual) (go m) :=
    .pass .memberEnd fun _ => .result id
  exact .attempt (indexSignature h a) (fun m => hgo m) (.bind (.laid hother) hgo)

/-! ## Simple types -/

theorem objectType (h : FormingRules src dialect rules) :
    Yields src dialect .firm Usual (objectType rules) := by
  refine .start fun a => .take (.expect _) fun _ => .move (.acceptOneOf _) fun front => ?_
  refine .children (.untilAt (.objectTypeMember h)) fun ms _ => ?_
  exact .look (.guardThat _) fun _ => .take (.expect _) fun _ => .close rfl (by simp)

theorem tupleType (h : FormingRules src dialect rules) :
    Yields src dialect .firm Usual (tupleType rules) := by
  refine .start fun a => .take (.expect _) fun _ => ?_
  exact .children (.listUntil (.tupleElement h)) fun es _ => .close rfl (by simp)

theorem parenthesizedType (h : FormingRules src dialect rules) :
    Yields src dialect .firm Usual (parenthesizedType rules) := by
  refine .start fun a => .take (.expect _) fun _ => .child (h .type) fun t _ => ?_
  exact .take (.expect _) fun _ => .close rfl (by simp)

theorem primaryType (h : FormingRules src dialect rules) :
    Yields src dialect .firm Usual (primaryType rules) := by
  refine fun a => .token fun x => ?_
  split
  · exact .forget (parenthesizedType h a)
  · exact .forget (tupleType h a)
  · exact .forget (objectType h a)
  · exact .forget (templateParts (h .type) a)
  · refine .startAt fun a => .advance rfl (.token fun y => .guardThat fun hnumber => ?_)
    obtain rfl := beq_iff_eq.mp hnumber
    exact .leafChild (k := .number) (fun n _ => .close rfl (by simp)) rfl rfl
  · exact .usual (.leaf (k := .number) rfl rfl)
  · exact .usual (.leaf (k := .string) rfl rfl)
  · exact .forget (typeQuery h a)
  · exact .forget (importedType h a)
  · exact .forget (namedType h a)
  · exact .failure

/-! ## Operators -/

theorem indexedType (h : FormingRules src dialect rules) :
    Yields src dialect .firm Usual (indexedType rules) := by
  refine .starting fun a => .bind (primaryType h a) fun t => ?_
  refine .steps (fun t => .at? fun _ => .look .onNewLine fun _ => .ifs (fun hb => ?_) fun _ => ?_) t
  · refine .seen (Bool.and_elim_left hb) (.behindSeen (.advance rfl ?_))
    refine .accept (.grow [t] rfl (by simp) fun _ => rfl) (.child (h .type) fun i _ => ?_)
    exact .take (.expect _) fun _ => .grow [t, i] rfl (by simp) fun _ => rfl
  · exact fun c hc => .pure hc.1.placed.within hc.1

theorem typeOperand (h : FormingRules src dialect rules) :
    Yields src dialect .firm Usual (typeOperand rules) := by
  refine .starting fun a => .token fun x => ?_
  split
  · rename_i w
    refine .look .ahead fun next => ?_
    extract_lets bound go
    have hbound (n : Tree) : Leads src (Laid src dialect a .firm ([] ++ [n]))
        (fun t => Laid src dialect a .firm ([] ++ [n] ++ [t])) bound := by
      refine .take (.expectWord _) fun _ => .child (h .plainType) fun t _ => ?_
      refine .look (.at? _) fun _ => .look (.guardThat _) fun _ c hc => ?_
      exact .pure hc.placed.within hc
    have hgo (operand : Bool) : Leads src
        (fun c => Starts src dialect a c ∧ c.token = .name w)
        (Whole src dialect a .firm Usual) (go operand) := by
      refine .ite (.startSeen (.advance rfl ?_)) (.ite (.startSeen (.advance rfl ?_)) ?_)
      · exact .child (h .typeOperand) fun t _ => .close rfl (by simp)
      · refine .child .identifier fun n _ => .attempt (hbound n) (fun b => ?_) ?_
        · exact .close rfl (by simp)
        · exact .close rfl (by simp)
      · exact .forget (indexedType h a)
    split <;> exact hgo _
  · exact .forget (indexedType h a)

theorem typeSeries {separator : String} {item : Parser Tree}
    (hitem : Yields src dialect .firm Usual item) :
    Yields src dialect .firm Usual (typeSeries separator item) := by
  refine .starting fun a => .startsAccept ?_ ?_
  · refine .child hitem fun t _ => .children (.behindEach hitem) fun ts _ => ?_
    exact .ifs (fun hfront => by simp at hfront) fun _ => .close rfl (by simp)
  · refine .first hitem fun t _ => .more (.behindEach hitem) (.result id) fun ts hts => ?_
    exact .ifs (fun hnone => by simp_all) fun _ => .close rfl (by simp)

end Yields

theorem Looks.isFunctionTypeAhead : Looks isFunctionTypeAhead := by
  refine .bind .token fun t => ?_
  split
  · exact .pure _
  · exact .bind .ahead fun _ => .pure _
  · exact .pure _
  · exact .pure _

namespace Yields

theorem unionType (h : FormingRules src dialect rules) :
    Yields src dialect .firm Usual (unionType rules) := by
  refine .typeSeries (.typeSeries (.look .isFunctionTypeAhead fun _ => .ite ?_ (h .typeOperand)))
  exact fun a => .attempt (functionType h a) (fun t => .result id) (h .typeOperand a)

theorem type (h : FormingRules src dialect rules) :
    Yields src dialect .firm Usual (type rules) := by
  refine .starting fun a => .first (unionType h) fun t _ => .atWord fun _ => ?_
  refine .look .onNewLine fun _ => .ifs (fun hb => ?_) fun _ => .forget (.result id)
  refine .seen (Bool.and_elim_left hb) (.behindSeen (.advance rfl ?_))
  refine .child (h .plainType) fun u _ => .take (.expect _) fun _ => ?_
  refine .child (h .type) fun x _ => .take (.expect _) fun _ => ?_
  exact .child (h .type) fun y _ => .close rfl (by simp)

end Yields

end SceneSync.Script
