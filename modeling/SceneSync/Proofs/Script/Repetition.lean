import Mathlib
import SceneSync.Proofs.Script.FieldsAfter
import SceneSync.Proofs.Script.Layout

/-!
# Repeated conversion

Converting a converted script takes the declaration of the fields away and writes
it anew. The text is the same again exactly when the fields are written the same,
and they are unless a type hung on `this`.
-/

namespace SceneSync.Script

open Script.Tree

variable {s s' : Script} {o : ConversionOptions}

/-! ## Trimmed texts -/

theorem trimEnd_eq_append (cs : List Char) : Text.trimEnd cs = [] ∨
    ∃ front c, Text.trimEnd cs = front ++ [c] ∧ Text.isBlank c = false := by
  rw [Text.trimEnd]
  cases hd : cs.reverse.dropWhile Text.isBlank with
  | nil => exact .inl rfl
  | cons c rest =>
    refine .inr ⟨rest.reverse, c, List.reverse_cons, ?_⟩
    have hhead := List.head?_dropWhile_not Text.isBlank cs.reverse
    rw [hd] at hhead
    simpa using hhead

theorem trimEnd_append_newline (cs : List Char) :
    Text.trimEnd (Text.trimEnd cs ++ ['\n']) = Text.trimEnd cs := by
  have hnewline : Text.isBlank '\n' = true := by decide
  rcases trimEnd_eq_append cs with h | ⟨front, c, h, hc⟩
  · rw [h]
    decide
  · rw [h, Text.trimEnd, List.reverse_append, List.reverse_append]
    simp [hnewline, hc]

/-- The last byte of a character that is no blank is no blank byte. -/
theorem last_byte_not_blank {c : Char} (hc : Text.isBlank c = false) :
    ∃ bs b, String.utf8EncodeChar c = bs ++ [b] ∧ isBlankByte b = false := by
  rcases Text.utf8EncodeChar_last c with ⟨hlow, henc⟩ | ⟨bs, b, henc, hb⟩
  · refine ⟨[], _, henc, ?_⟩
    simp only [Text.isBlank] at hc
    simp [isBlankByte, ← UInt8.toNat_inj]
    simp at hc
    omega
  · exact ⟨bs, b, henc, isBlankByte_of_high hb⟩

/-- A trimmed text ends in no blank byte. -/
theorem takeWhile_trimEnd (cs : List Char) :
    (Text.encode (Text.trimEnd cs)).reverse.takeWhile isBlankByte = [] := by
  rcases trimEnd_eq_append cs with h | ⟨front, c, h, hc⟩
  · rw [h]
    rfl
  · obtain ⟨bs, b, hb, hblank⟩ := last_byte_not_blank hc
    rw [h, Text.encode_append]
    simp [Text.encode, hb, hblank]

/-! ## The declaration is taken away -/

/-- The alias behind a trimmed text is removed with the blank line before it. -/
theorem removal_eq {F R : List UInt8} {t : Tree} (hF : F.reverse.takeWhile isBlankByte = [])
    (hstart : t.start + R.length = t.stop) (hstop : t.stop + 1 = (F ++ [10, 10] ++ R ++ [10]).length) :
    Edit.apply (F ++ [10, 10] ++ R ++ [10]) (removal (F ++ [10, 10] ++ R ++ [10]) t) =
      F ++ if F = [] then [] else [10] := by
  simp only [List.length_append, List.length_cons, List.length_nil] at hstop
  have hbefore : (F ++ [10, 10] ++ R ++ [10]).take t.start = F ++ [10, 10] := by
    rw [List.append_assoc, List.take_left']
    simp only [List.length_append, List.length_cons, List.length_nil]
    omega
  have hafter : (F ++ [10, 10] ++ R ++ [10]).drop t.stop = [10] := by
    rw [List.drop_left']
    simp only [List.length_append, List.length_cons, List.length_nil]
    omega
  have hblanks : ((F ++ [10, 10]).reverse.takeWhile isBlankByte).length = 2 := by
    simp [hF, isBlankByte]
  have hhead : (F ++ [10, 10]).length - 2 = F.length := by simp
  have hremoval : removal (F ++ [10, 10] ++ R ++ [10]) t =
      ⟨F.length, if F = [] then t.stop + 1 else t.stop, []⟩ := by
    have hzero : F.length = 0 ↔ F = [] := List.length_eq_zero_iff
    simp only [removal, hbefore, hblanks, hafter, hhead, beq_iff_eq, hzero]
    by_cases hnil : F = []
    · simp [hnil, isBlankByte]
    · simp [hnil]
  have hlength : (F ++ [10, 10] ++ R ++ [10]).length = t.stop + 1 := by
    simp only [List.length_append, List.length_cons, List.length_nil]
    omega
  have hrange : (removal (F ++ [10, 10] ++ R ++ [10]) t).InRange
      (F ++ [10, 10] ++ R ++ [10]).length := by
    rw [hremoval, hlength]
    refine ⟨Int.natCast_nonneg _, ?_, ?_⟩ <;> simp only <;> split <;> omega
  rw [Edit.apply_eq hrange, hremoval]
  by_cases hnil : F = []
  · subst hnil
    simp only [↓reduceIte, List.append_nil]
    rw [List.drop_eq_nil_of_le (by omega)]
    simp
  · simp only [hnil, ↓reduceIte, Int.toNat_natCast, hafter, List.append_nil]
    rw [List.append_assoc, List.append_assoc, List.take_left]

theorem applyAll_singleton (bytes : List UInt8) (e : Edit) :
    Edit.applyAll bytes [e].eraseDups = Edit.apply bytes e := by
  have hone : [e].eraseDups = [e] := by
    rw [List.eraseDups_cons]
    rfl
  rw [hone, Edit.applyAll, List.mergeSort_singleton]
  rfl

/-- Only the declaration of the fields goes: what is left is trimmed to the same text. -/
theorem trimEnd_withoutFields {x : List Char} {fields : List Field} (hne : fields ≠ [])
    (hsource : s.source = withFields x fields) {t : Tree}
    (halias : s.statements.filter s.isOldAlias = [t])
    (hstart : t.start + (bytesOf (Extensions.render fields)).length = t.stop)
    (hstop : t.stop + 1 = (Text.encode s.source).length) :
    Text.trimEnd (readBack (s.edited s.removalEdits)) = Text.trimEnd x := by
  have hbytes : Text.encode s.source = Text.encode (Text.trimEnd x) ++ [10, 10] ++
      bytesOf (Extensions.render fields) ++ [10] := by
    have hblank : Text.encode "\n\n".toList = [10, 10] := by decide
    have hnewline : Text.encode ['\n'] = [10] := by decide
    rw [hsource, withFields, if_neg (by simpa using hne), Text.encode_append, Text.encode_append,
      Text.encode_append, hblank, hnewline, bytesOf]
  have hedited : s.edited s.removalEdits =
      Text.encode (Text.trimEnd x ++ if Text.trimEnd x = [] then [] else ['\n']) := by
    rw [hbytes] at hstop
    have hone : s.removalEdits = [removal (Text.encode s.source) t] := by
      rw [removalEdits, halias, List.map_singleton]
    rw [edited, hone, applyAll_singleton, hbytes,
      removal_eq (takeWhile_trimEnd x) hstart hstop, Text.encode_append]
    have hnil : Text.encode (Text.trimEnd x) = [] ↔ Text.trimEnd x = [] :=
      ⟨fun h => Text.encode_injective h, fun h => by rw [h]; rfl⟩
    congr 1
    simp only [hnil]
    split <;> rfl
  rw [hedited, readBack, Text.decode_encode]
  change Text.trimEnd (Text.trimEnd x ++ if Text.trimEnd x = [] then [] else ['\n']) = _
  split
  · rename_i hnil
    rw [hnil]
    rfl
  · exact trimEnd_append_newline x

/-! ## The second conversion -/

/-- Two texts with fields behind one body are the same when the fields are written the
same. -/
theorem withFields_inj {x y : List Char} {fields fields' : List Field}
    (hbody : Text.trimEnd y = Text.trimEnd x) (hne : fields ≠ []) (hne' : fields' ≠ []) :
    withFields y fields' = withFields x fields ↔
      Extensions.render fields' = Extensions.render fields := by
  rw [withFields, withFields, if_neg (by simpa using hne'), if_neg (by simpa using hne), hbody,
    List.append_left_inj, List.append_right_inj, String.toList_inj]

/-- When a second conversion gives the text that it got. -/
theorem second_text (hs : s.Grammatical) {fields members : List Field}
    (hd : s'.dialect = .typed) (hback : ReadsBack s s' o fields) :
    (∃ r', s'.convert o members = .ok r' ∧ r'.text = s'.source) ↔
      (parse? .typed s'.source).isSome ∧
        withFields (readBack (s'.edited s'.removalEdits)) (s.fieldsAfter o members) = s'.source := by
  simp only [convert_typed_iff hd, allSiteEdits_nil hs hback, Except.ok.injEq, exists_eq_left',
    fieldsOf_second hs hback, List.nil_append]
  constructor
  · rintro ⟨r', ⟨hfields, -, htext, hparse⟩, hsame⟩
    rw [hsame] at hparse htext
    exact ⟨hparse, by rw [htext, hfields]⟩
  · rintro ⟨hparse, htext⟩
    refine ⟨⟨s'.source, s.fieldsAfter o members, _⟩, ⟨rfl, rfl, htext.symm, hparse⟩, rfl⟩

theorem fieldsAfter_eq_nil_iff (members : List Field) : s.fieldsAfter o members = [] ↔
    (fieldsOf (s.allPublications o.context) members).1 = [] := by
  rw [← List.map_eq_nil_iff (f := Field.name), fieldsAfter_names, List.map_eq_nil_iff]

/-- A second conversion gives the same text exactly when it writes the same fields. -/
theorem second_text_iff (hs : s.Grammatical) {x : List Char} {members : List Field}
    (hd : s'.dialect = .typed) (hparse : (parse? .typed s'.source).isSome)
    {fields : List Field} (hfields : fields = (fieldsOf (s.allPublications o.context) members).1)
    (hsource : s'.source = withFields x fields) (hback : ReadsBack s s' o fields) :
    (∃ r', s'.convert o members = .ok r' ∧ r'.text = s'.source) ↔
      Extensions.render (s.fieldsAfter o members) = Extensions.render fields := by
  rw [second_text hs hd hback, and_iff_right hparse]
  have haliases := hback.aliases
  by_cases hnil : fields = []
  · have hafter : s.fieldsAfter o members = [] := by
      rw [fieldsAfter_eq_nil_iff, ← hfields, hnil]
    have hnone : s'.edited s'.removalEdits = Text.encode s'.source := by
      rw [if_pos hnil, List.length_eq_zero_iff] at haliases
      rw [removalEdits, haliases]
      simp [edited, Edit.applyAll]
    rw [hnone, readBack, Text.decode_encode, hafter, hnil]
    simp [withFields, Except.toOption]
  · have hafter : s.fieldsAfter o members ≠ [] := by
      rwa [Ne, fieldsAfter_eq_nil_iff, ← hfields]
    rw [if_neg hnil, List.length_eq_one_iff] at haliases
    obtain ⟨t, halias⟩ := haliases
    obtain ⟨ht, hold⟩ := List.mem_filter.mp (halias ▸ List.mem_singleton_self t)
    obtain ⟨hstart, hstop⟩ := hback.written t ht hold
    rw [hsource, ← withFields_inj (trimEnd_withoutFields hnil hsource halias hstart hstop) hnil
      hafter]

/-- The result of a typed conversion is a script. Where it is read back as it was meant, a
second conversion gives the same text exactly when it writes the fields the same, and so
whenever no type that is constructed hangs on the scene. -/
theorem repeated_conversion_iff (s : Script) (o : ConversionOptions) (members : List Field)
    (r : Converted) (hd : s.dialect = .typed) (hs : s.Grammatical)
    (h : s.convert o members = .ok r) :
    ∃ s', read .typed r.text = .ok s' ∧ (ReadsBack s s' o r.fields →
      ((∃ r', s'.convert o members = .ok r' ∧ r'.text = r.text) ↔
        Extensions.render (s.fieldsAfter o members) = Extensions.render r.fields) ∧
      ((∀ u ∈ s.tree.preorder, u.kind = .newExpression → s.typeUsesScene u = false) →
        ∃ r', s'.convert o members = .ok r' ∧ r'.text = r.text)) := by
  obtain ⟨edits, -, hfields, -, htext, hparse⟩ := (convert_typed_iff hd).mp h
  obtain ⟨s', hread, hd', hsource⟩ := read_of_parse hparse
  refine ⟨s', hread, fun hback => ?_⟩
  have hparse' : (parse? .typed s'.source).isSome := by rwa [hsource]
  have hiff := second_text_iff hs hd' hparse' hfields (hsource.trans htext) hback
  rw [hsource] at hiff
  refine ⟨hiff, fun hnone => hiff.mpr ?_⟩
  rw [fieldsAfter_eq hnone, hfields]

set_option maxRecDepth 100000 in
theorem repeated_conversion_iff_hero : (typedScript heroSource).Grammatical ∧
    (typedScript heroSource).convert .usual [] = .ok heroConverted ∧
    ∃ s', read .typed heroConverted.text = .ok s' ∧
      ∃ r', s'.convert .usual [] = .ok r' ∧ r'.text = heroConverted.text := by
  obtain ⟨hgrammatical, hnone, hback, hparse⟩ : (typedScript heroSource).Grammatical ∧
      (∀ u ∈ (typedScript heroSource).tree.preorder, u.kind = .newExpression →
        (typedScript heroSource).typeUsesScene u = false) ∧
      ReadsBack (typedScript heroSource) (typedScript heroText) .usual heroConverted.fields ∧
      (parse? .typed heroText.toList).isSome := by decide +kernel
  obtain ⟨s', hread, hagain⟩ := repeated_conversion_iff (typedScript heroSource) .usual []
    heroConverted rfl hgrammatical heroSource_converts
  obtain rfl : typedScript heroText = s' :=
    Except.ok.inj ((read_typedScript heroText hparse).symm.trans hread)
  exact ⟨hgrammatical, heroSource_converts, _, hread, (hagain hback).2 hnone⟩

/-- A type read off `this` has no name before the conversion, and one after it. -/
def memberSource : String :=
  "function create() { const hero = new this.Hero(this); this.hero = hero; }"

def memberText (type : String) : String :=
  "export function create(scene: Phaser.Scene | any) " ++
    "{ const hero = new scene.Hero(scene); scene.hero = hero; }" ++
    "\n\nexport type SceneExtensions = \x7b\n  hero: " ++ type ++ ";\n\x7d;\n"

def memberConverted (type : String) : Converted :=
  ⟨(memberText type).toList, [⟨"hero", type⟩], []⟩

set_option maxRecDepth 100000 in
/-- A second conversion does not always give the text that it got. -/
theorem repeated_conversion_differs :
    (typedScript memberSource).convert .usual [] = .ok (memberConverted "any") ∧
      ∃ s' r', read .typed (memberConverted "any").text = .ok s' ∧
        s'.convert .usual [] = .ok r' ∧ r'.text ≠ (memberConverted "any").text := by
  let opening := [insertion 0 "export ", insertion 16 "scene: Phaser.Scene | any"]
  let edit (start : Int) : Edit := ⟨start, start + 4, bytesOf "scene"⟩
  obtain ⟨hfirst, hsecond, hparse⟩ :
      ConvertsBy (typedScript memberSource) .usual [] (opening ++ [edit 47, edit 37, edit 54])
        (opening ++ [edit 37, edit 47, edit 54]) (memberConverted "any") ∧
      ConvertsBy (typedScript (memberText "any")) .usual [] [] [⟨108, 157, []⟩]
        (memberConverted "scene.Hero") ∧
      (parse? .typed (memberText "any").toList).isSome := by decide +kernel
  have hne : (memberConverted "scene.Hero").text ≠ (memberConverted "any").text := by
    decide +kernel
  exact ⟨hfirst.convert, _, _, read_typedScript (memberText "any") hparse, hsecond.convert, hne⟩

end SceneSync.Script
