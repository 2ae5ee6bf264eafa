import Mathlib
import SceneSync.Proofs.Script.PlainConversion

/-!
# The typed conversion

Converting a typed script edits its sites as in a plain one, takes away what an
earlier conversion declared, and declares the fields of the scene behind the rest.
-/

namespace SceneSync.Script

open Script.Tree

variable {s : Script} {o : ConversionOptions} {site : Site}

/-- What a conversion of a typed script is. -/
theorem convert_typed_iff (hd : s.dialect = .typed) {members : List Field} {r : Converted} :
    s.convert o members = .ok r ↔ ∃ edits, s.allSiteEdits o = .ok edits ∧
      r.fields = (fieldsOf (s.allPublications o.context) members).1 ∧
      r.warnings = (fieldsOf (s.allPublications o.context) members).2 ∧
      r.text = withFields (readBack (s.edited (edits ++ s.removalEdits))) r.fields ∧
      (parse? .typed r.text).isSome := by
  have htyped : Dialect.isTyped .typed = true := rfl
  cases he : s.allSiteEdits o with
  | error fault => simp [convert, he, bind, Except.bind]
  | ok edits =>
    simp only [convert, he, hd, htyped, bind, Except.bind, ↓reduceIte, Except.ok.injEq,
      exists_eq_left']
    obtain ⟨text, fields, warnings⟩ := r
    constructor
    · intro h
      split at h
      · rename_i t ht
        cases h
        exact ⟨rfl, rfl, rfl, by simp [ht]⟩
      · cases h
    · rintro ⟨hfields, hwarnings, htext, hparse⟩
      simp only at hfields hwarnings htext hparse
      subst hfields hwarnings
      rw [htext] at hparse ⊢
      obtain ⟨t, ht⟩ := Option.isSome_iff_exists.mp hparse
      rw [ht]
      rfl

/-- What a typed conversion comes to, checked on its edits in a left-to-right order. -/
def ConvertsBy (s : Script) (o : ConversionOptions) (members : List Field)
    (edits changes : List Edit) (r : Converted) : Prop :=
  s.dialect = .typed ∧ s.allSiteEdits o = .ok edits ∧
    changes.Perm (edits ++ s.removalEdits).eraseDups ∧ changes.Pairwise Edit.Precedes ∧
    (∀ e ∈ changes, e.InRange (Text.encode s.source).length) ∧
    fieldsOf (s.allPublications o.context) members = (r.fields, r.warnings) ∧
    withFields (readBack (Edit.splice (Text.encode s.source) 0 changes)) r.fields = r.text ∧
    (parse? .typed r.text).isSome

instance (s : Script) (o : ConversionOptions) (members : List Field) (edits changes : List Edit)
    (r : Converted) : Decidable (ConvertsBy s o members edits changes r) :=
  inferInstanceAs (Decidable (_ ∧ _))

theorem ConvertsBy.convert {members : List Field} {edits changes : List Edit} {r : Converted}
    (h : ConvertsBy s o members edits changes r) : s.convert o members = .ok r := by
  obtain ⟨hd, he, hp, hs, hr, hfields, htext, hparse⟩ := h
  refine (convert_typed_iff hd).mpr ⟨edits, he, ?_, ?_, ?_, hparse⟩
  · rw [hfields]
  · rw [hfields]
  · rw [edited, Edit.applyAll_eq_splice hp hs hr, htext]

/-- The edits by which a site takes the scene: none when the scene is a parameter already,
and one when no parameter binds its name. -/
inductive TakesScene (s : Script) (o : ConversionOptions) (site : Site) : List Edit → Prop
  | noList : site.parameters? = none → TakesScene s o site []
  | there {list p : Tree} : site.parameters? = some list → p ∈ list.children →
      s.isSceneParameter o.context p = true → TakesScene s o site []
  | put {list : Tree} {place : Nat} {text : String} : site.parameters? = some list →
      (∀ p ∈ list.children, s.binds o.context p = false) → ParameterPlace site place →
      text ∈ [s.sceneParameter o, s.sceneParameter o ++ ", ", ", " ++ s.sceneParameter o] →
      TakesScene s o site [insertion place text]

theorem takesScene {es : List Edit} (h : s.sceneParameterEdits o site = .ok es) :
    TakesScene s o site es := by
  cases hl : site.parameters? with
  | none =>
    obtain rfl : [] = es := by simpa [sceneParameterEdits, hl] using h
    exact .noList hl
  | some list =>
    simp only [sceneParameterEdits, hl] at h
    split at h
    · rename_i hany
      obtain ⟨p, hp, hscene⟩ := List.any_eq_true.mp hany
      cases h
      exact .there hl hp hscene
    · split at h
      · cases h
      · rename_i hfree
        have hfree' : ∀ p ∈ list.children, s.binds o.context p = false := by
          simpa [List.find?_eq_none] using hfree
        split at h
        · cases h
          exact .put hl hfree' ⟨list, hl, .inl rfl⟩ (by simp)
        · rename_i p ps hps
          split at h
          · cases h
            exact .put hl hfree' ⟨list, hl, .inr ⟨p, by simp [hps], rfl⟩⟩ (by simp)
          · cases h
            exact .put hl hfree' ⟨list, hl, .inl rfl⟩ (by simp)

theorem siteEdits_eq_ok {l : List Edit} : s.siteEdits o site = .ok l ↔
    ∃ parameters, s.sceneParameterEdits o site = .ok parameters ∧
      l = exportEdits site ++ parameters ++ sceneUseEdits o site := by
  cases hp : s.sceneParameterEdits o site with
  | error fault => simp [siteEdits, hp, bind, Except.bind]
  | ok parameters =>
    simp [siteEdits, hp, bind, Except.bind, pure, Except.pure, eq_comm]

theorem siteEdit_of_siteEdits {l : List Edit} (h : s.siteEdits o site = .ok l) :
    ∃ place text, ∀ e ∈ l, SiteEdit o.context site place text e := by
  obtain ⟨parameters, hparameters, rfl⟩ := siteEdits_eq_ok.mp h
  have hedit {place : Nat} {text : String} (hp : ∀ e ∈ parameters,
      SiteEdit o.context site place text e) : ∀ e ∈ exportEdits site ++ parameters ++
        sceneUseEdits o site, SiteEdit o.context site place text e := by
    intro e he
    rcases List.mem_append.mp he with he | he
    · rcases List.mem_append.mp he with he | he
      · rw [exportEdits] at he
        split at he
        · cases he
        · rw [List.mem_singleton.mp he]
          exact .exported
      · exact hp e he
    · obtain ⟨v, hv, rfl⟩ := List.mem_map.mp he
      exact .use (mem_sceneUses.mp hv)
  cases takesScene hparameters with
  | noList => exact ⟨0, "", hedit (by simp)⟩
  | there => exact ⟨0, "", hedit (by simp)⟩
  | @put _ place text _ _ hplace =>
    refine ⟨place, text, hedit fun e he => ?_⟩
    rw [List.mem_singleton.mp he]
    exact .parameter hplace

/-! ## A script and its conversion -/

theorem read_of_parse {d : Dialect} {text : List Char} (h : (parse? d text).isSome) :
    ∃ s', read d text = .ok s' ∧ s'.dialect = d ∧ s'.source = text := by
  obtain ⟨t, ht⟩ := Option.isSome_iff_exists.mp h
  exact ⟨⟨d, text, t⟩, by rw [read, ht], rfl, rfl⟩

/-- The script of a text, or an empty one. -/
def typedScript (source : String) : Script :=
  ⟨.typed, source.toList, (parse? .typed source.toList).getD (.node .plain .program 0 0 [])⟩

theorem read_typedScript (source : String) (h : (parse? .typed source.toList).isSome) :
    read .typed source.toList = .ok (typedScript source) := by
  obtain ⟨t, ht⟩ := Option.isSome_iff_exists.mp h
  rw [read, typedScript, ht]
  rfl

/-- A script that publishes what it constructs. -/
def heroSource : String := "function create() { const hero = new Hero(this); this.hero = hero; }"

def heroText : String :=
  "export function create(scene: Phaser.Scene | any) " ++
    "{ const hero = new Hero(scene); scene.hero = hero; }" ++
    "\n\nexport type SceneExtensions = \x7b\n  hero: Hero;\n\x7d;\n"

def heroConverted : Converted := ⟨heroText.toList, [⟨"hero", "Hero"⟩], []⟩

set_option maxRecDepth 100000 in
theorem heroSource_converts : (typedScript heroSource).convert .usual [] = .ok heroConverted := by
  let changes := [insertion 0 "export ", insertion 16 "scene: Phaser.Scene | any",
    ⟨42, 46, bytesOf "scene"⟩, ⟨49, 53, bytesOf "scene"⟩]
  have hby : ConvertsBy (typedScript heroSource) .usual [] changes changes heroConverted := by
    decide +kernel
  exact hby.convert

end SceneSync.Script
