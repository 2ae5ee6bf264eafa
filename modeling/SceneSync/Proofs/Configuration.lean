import Mathlib
import SceneSync.Proofs.Settings
import SceneSync.Proofs.Text.Decoding

/-!
# Configurations of files

A settings file gives a configuration when it holds a text that tells settings. Its
paths are then seen from the directory of the file. Every failure names the file but
one, that of a file that holds no text.
-/

namespace SceneSync

variable {base p : Path} {text : String} {s : Settings} {c : Configuration}

/-! ## Paths in settings -/

/-- A path as it is seen from a directory: one from the root stays as it is, any other
starts where the directory ends. -/
inductive Path.Seen (base : Path) (text : String) : Path → Prop
  | root (h : text.toList.head? = some '/') : Seen base text (ofString text)
  | below (h : text.toList.head? ≠ some '/') :
      Seen base text ⟨base.anchor, base.names ++ (ofString text).names⟩

theorem Path.isAbsolute_ofString_iff :
    (ofString text).isAbsolute = true ↔ text.toList.head? = some '/' := by
  rw [show (ofString text).isAbsolute = (anchorOf text.toList != .relative) from rfl, bne_iff_ne]
  cases text.toList with
  | nil => simp [anchorOf]
  | cons c cs =>
    rw [List.head?_cons, Option.some.injEq]
    constructor
    · intro h
      by_contra hc
      exact h (by simp [anchorOf, hc])
    · rintro rfl
      rw [anchorOf.eq_def]
      split <;> simp_all

theorem Path.seen_iff {q : Path} : Seen base text q ↔ q = base.join (ofString text) := by
  by_cases h : text.toList.head? = some '/'
  · rw [join, if_pos (isAbsolute_ofString_iff.mpr h)]
    constructor
    · rintro (_ | hnot)
      · rfl
      · exact absurd h hnot
    · rintro rfl
      exact .root h
  · rw [join, if_neg (mt isAbsolute_ofString_iff.mp h)]
    constructor
    · rintro (hroot | _)
      · exact absurd hroot h
      · rfl
    · rintro rfl
      exact .below h

namespace Configuration

/-- A configuration that takes the paths of settings as they are seen from a directory,
all else as it is told, and what is not told as usual. -/
structure SeenFrom (base : Path) (s : Settings) (c : Configuration) : Prop where
  watchDir : base.Seen s.watchDir c.watchDir
  outputDir : base.Seen s.outputDir c.outputDir
  conversionDir : Option.Rel base.Seen s.conversionDir c.conversionDir
  exclude : c.exclude = s.exclude.getD []
  context : c.context = s.context.getD Script.ConversionOptions.usual.context
  sceneType : c.sceneType = s.sceneType.getD Script.ConversionOptions.usual.sceneType
  extension : c.extension = s.extension.getD Descriptor.extension
  maxDepth : c.maxDepth = s.maxDepth.getD Descriptor.usualMaxDepth

theorem seenFrom_iff : SeenFrom base s c ↔ c = s.configuration base := by
  have hconversion (x : Option String) (y : Option Path) :
      Option.Rel base.Seen x y ↔ y = x.map fun text => base.join (.ofString text) := by
    cases x <;> cases y <;> simp [Path.seen_iff]
  constructor
  · rintro ⟨hwatch, houtput, hconv, hexclude, hcontext, htype, hextension, hdepth⟩
    rw [Path.seen_iff] at hwatch houtput
    rw [hconversion] at hconv
    cases c
    simp only at hwatch houtput hconv hexclude hcontext htype hextension hdepth
    subst hwatch houtput hconv hexclude hcontext htype hextension hdepth
    rfl
  · rintro rfl
    exact ⟨Path.seen_iff.mpr rfl, Path.seen_iff.mpr rfl, (hconversion _ _).mpr rfl,
      rfl, rfl, rfl, rfl, rfl⟩

example : SeenFrom (.ofString "/etc") ⟨"../editor", "/build", none, none, none, none, none, none⟩
    (ofDirectories (.ofString "/etc/../editor") (.ofString "/build")) :=
  seenFrom_iff.mpr (by decide)

/-! ## Loading -/

/-- How loading a file can end. -/
theorem load_cases (t : FileTree) (p : Path) :
    (∃ e, t.read p = .error e ∧ load t p = .error (.unreadable p e)) ∨
    (∃ bytes e, t.read p = .ok bytes ∧ (∀ cs, bytes ≠ Text.encode cs) ∧
      load t p = .error (.undecodable e)) ∨
    ∃ cs, t.read p = .ok (Text.encode cs) ∧
      ((∃ f, Settings.read (Text.unifyLineEnds cs) = .error f ∧
          load t p = .error (.invalid p.toString f)) ∨
        ∃ s, Settings.read (Text.unifyLineEnds cs) = .ok s ∧
          load t p = .ok (s.configuration p.parent)) := by
  rw [load]
  cases hread : t.read p with
  | error e => exact .inl ⟨e, rfl, rfl⟩
  | ok bytes =>
    simp only
    cases hdecode : Text.decode bytes with
    | error e =>
      exact .inr (.inl ⟨bytes, e, rfl, Text.decode_eq_error_iff.mp ⟨e, hdecode⟩, rfl⟩)
    | ok cs =>
      obtain rfl := Text.decode_eq_ok_iff.mp hdecode
      simp only
      cases hs : Settings.read (Text.unifyLineEnds cs) with
      | error f => exact .inr (.inr ⟨cs, rfl, .inl ⟨f, hs, rfl⟩⟩)
      | ok s => exact .inr (.inr ⟨cs, rfl, .inr ⟨s, hs, rfl⟩⟩)

/-- Bytes are the encoding of a text that reads as a mapping, and the mapping tells
settings. -/
def Holds (bytes : List UInt8) (s : Settings) : Prop :=
  ∃ cs es, bytes = Text.encode cs ∧ Yaml.read (Text.unifyLineEnds cs) = some (.mapping es) ∧
    Settings.Told es s

/-- What is wrong first in the text of a settings file. -/
def FirstFault (cs : List Char) (f : SettingsFault) : Prop :=
  (Yaml.read (Text.unifyLineEnds cs) = none ∧ f = .notYaml) ∨
    ∃ v, Yaml.read (Text.unifyLineEnds cs) = some v ∧ Settings.HasFault v f ∧
      ∀ g, Settings.HasFault v g → Settings.rank f ≤ Settings.rank g

theorem holds_encode_iff {cs : List Char} :
    Holds (Text.encode cs) s ↔ Settings.read (Text.unifyLineEnds cs) = .ok s := by
  rw [Settings.read]
  constructor
  · rintro ⟨ds, es, hds, hyaml, htold⟩
    obtain rfl := Text.encode_injective hds
    rw [hyaml]
    exact Settings.ofYaml_eq_ok_iff.mpr ⟨es, rfl, htold⟩
  · intro h
    cases hyaml : Yaml.read (Text.unifyLineEnds cs) with
    | none =>
      rw [hyaml] at h
      cases h
    | some v =>
      rw [hyaml] at h
      obtain ⟨es, rfl, htold⟩ := Settings.ofYaml_eq_ok_iff.mp h
      exact ⟨cs, es, rfl, hyaml, htold⟩

theorem firstFault_of_read {cs : List Char} {f : SettingsFault}
    (h : Settings.read (Text.unifyLineEnds cs) = .error f) : FirstFault cs f := by
  rw [Settings.read] at h
  cases hyaml : Yaml.read (Text.unifyLineEnds cs) with
  | none =>
    rw [hyaml] at h
    exact .inl ⟨hyaml, (Except.error.inj h).symm⟩
  | some v =>
    rw [hyaml] at h
    exact .inr ⟨v, hyaml, Settings.first_of_ofYaml_eq_error h⟩

/-- A file gives the configuration of the settings that it holds, as seen from its own
directory. Otherwise the failure names the file, and of a text it tells the first fault.
Only the failure of a file that holds no text names no file. -/
theorem load_seen_or_refused (t : FileTree) (p : Path) :
    (∀ c, load t p = .ok c ↔
      ∃ bytes s, t.read p = .ok bytes ∧ Holds bytes s ∧ SeenFrom p.parent s c) ∧
    (∀ e, load t p = .error (.unreadable p e) ↔ t.read p = .error e) ∧
    ((∃ f, load t p = .error (.invalid p.toString f)) ↔
      ∃ cs, t.read p = .ok (Text.encode cs) ∧ ∀ s, ¬ Holds (Text.encode cs) s) ∧
    (∀ f, load t p = .error (.invalid p.toString f) →
      ∃ cs, t.read p = .ok (Text.encode cs) ∧ FirstFault cs f) ∧
    ((∃ e, load t p = .error (.undecodable e)) ↔
      ∃ bytes, t.read p = .ok bytes ∧ ∀ cs, bytes ≠ Text.encode cs) ∧
    ∀ e, load t p = .error e →
      (∃ g, e = .unreadable p g) ∨ (∃ f, e = .invalid p.toString f) ∨ ∃ g, e = .undecodable g := by
  rcases load_cases t p with ⟨e, hread, hload⟩ | ⟨bytes, e, hread, hnone, hload⟩ |
    ⟨cs, hread, ⟨f, hfault, hload⟩ | ⟨s, hs, hload⟩⟩
  · simp [hread, hload, eq_comm]
  · have hholds (s : Settings) : ¬ Holds bytes s := fun ⟨cs, _, hcs, _⟩ => hnone cs hcs
    simp [hread, hload, hnone, hholds]
  · have hholds (s : Settings) : ¬ Holds (Text.encode cs) s := by
      simp [holds_encode_iff, hfault]
    simp [hread, hload, hholds, Text.encode_inj, firstFault_of_read hfault]
  · simp [hread, hload, holds_encode_iff, hs, Text.encode_inj, seenFrom_iff, eq_comm]

/-- A settings file of one byte that is no text. Its failure is not among those that name
the file. -/
theorem undecodable_settings_unnamed :
    let t : FileTree := ⟨.ofString "/", [(["scene.yaml"], .file [0xFF])]⟩
    let p := Path.ofString "/scene.yaml"
    t.read p = .ok [0xFF] ∧ load t p = .error (.undecodable ⟨0xFF, 0, 1, .invalidStart⟩) ∧
      ¬ ((∃ c, load t p = .ok c) ∨ (∃ e, load t p = .error (.unreadable p e)) ∨
        ∃ f, load t p = .error (.invalid p.toString f)) := by
  intro t p
  have hread : t.read p = .ok [0xFF] := by cbv
  have hload : load t p = .error (.undecodable ⟨0xFF, 0, 1, .invalidStart⟩) := by cbv
  exact ⟨hread, hload, by simp [hload]⟩

end Configuration

end SceneSync
