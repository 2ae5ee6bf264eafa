import Mathlib
import SceneSync.Proofs.Script.PlainConversion
import SceneSync.Settings

/-!
# Which settings are accepted

The faults of a settings file are told apart by what is wrong in it. A value is
refused exactly when it has one, and then for its first one. Otherwise the settings
say what stands under the keys, and there is a configuration that takes them as its
arguments.
-/

namespace SceneSync.Settings

variable {α β : Type} {v : Yaml} {es : List (String × Yaml)} {key : String}

/-! ## What may stand under a key -/

/-- Keys for a text, in the order in which they are checked. -/
def textKeys : List String :=
  ["watch_dir", "output_dir", "conversion_dir", "context_name", "scene_type",
   "descriptor_extension"]

/-- The value is a text. -/
def AsText (v : Yaml) (s : String) : Prop := v = .scalar s

/-- The value is one text or a list of texts. -/
def AsTexts (v : Yaml) (ss : List String) : Prop :=
  (∃ s, v = .scalar s ∧ ss = [s]) ∨ v = .sequence (ss.map .scalar)

/-- The value is the text of an integer. -/
def AsInteger (v : Yaml) (n : Int) : Prop := ∃ s, v = .scalar s ∧ Text.toInt? s = some n

/-- A setting and what stands under its key: a value that has it, or nothing but null. -/
def Stands (es : List (String × Yaml)) (key : String) (As : Yaml → α → Prop) : Option α → Prop
  | some a => ∃ v, Yaml.valueOf? es key = some v ∧ As v a
  | none => ∀ v, Yaml.valueOf? es key = some v → v = .null

/-- Something other than null stands under the key that cannot be its setting. -/
def Unfit (es : List (String × Yaml)) (key : String) (As : Yaml → α → Prop) : Prop :=
  ∃ v, Yaml.valueOf? es key = some v ∧ v ≠ .null ∧ ∀ a, ¬ As v a

/-- There is nothing under the key, or nothing in what is there. -/
def Missing (es : List (String × Yaml)) (key : String) : Prop :=
  ∀ v, Yaml.valueOf? es key = some v →
    v = .null ∨ v = .scalar "" ∨ v = .sequence [] ∨ v = .mapping []

theorem eq_of_mem_requiredKeys (h : key ∈ requiredKeys) :
    key = "watch_dir" ∨ key = "output_dir" := by
  simpa [requiredKeys] using h

theorem not_unfit_of_stands {As : Yaml → α → Prop} {x : Option α} (h : Stands es key As x) :
    ¬ Unfit es key As := by
  rintro ⟨v, hv, hnull, hnot⟩
  cases x with
  | none => exact hnull (h v hv)
  | some a =>
    obtain ⟨v', hv', ha⟩ := h
    obtain rfl := Option.some.inj (hv.symm.trans hv')
    exact hnot a ha

theorem isGiven_eq_false_iff : isGiven (Yaml.valueOf? es key) = false ↔ Missing es key := by
  rw [Missing]
  cases Yaml.valueOf? es key with
  | none => simp [isGiven]
  | some v => cases v <;> simp [isGiven]

theorem exists_of_stands {x : Option String} (h : Stands es key AsText x)
    (hgiven : ¬ Missing es key) : ∃ s, x = some s ∧ s ≠ "" := by
  cases x with
  | none => exact absurd (fun v hv => .inl (h v hv)) hgiven
  | some s =>
    obtain ⟨v, hv, rfl⟩ := h
    refine ⟨s, rfl, ?_⟩
    rintro rfl
    refine hgiven fun v hv' => .inr (.inl ?_)
    exact Option.some.inj (hv'.symm.trans hv)

/-! ## Faults -/

/-- A value has a fault, and the fault tells what is wrong in it. -/
inductive HasFault : Yaml → SettingsFault → Prop
  | notMapping {v : Yaml} (h : ∀ es, v ≠ .mapping es) : HasFault v .notMapping
  | unknownKeys {es : List (String × Yaml)} {keys : List String} (hsome : keys ≠ [])
      (hkeys : ∀ k, k ∈ keys ↔ k ∈ es.map Prod.fst ∧ k ∉ allKeys)
      (hsorted : keys.Pairwise (· < ·)) : HasFault (.mapping es) (.unknownKeys keys)
  | missingKeys {es : List (String × Yaml)} {keys : List String} (hsome : keys ≠ [])
      (hkeys : ∀ k, k ∈ keys ↔ k ∈ requiredKeys ∧ Missing es k)
      (hsorted : keys.Sublist requiredKeys) : HasFault (.mapping es) (.missingKeys keys)
  | notText {es : List (String × Yaml)} {key : String} (hkey : key ∈ textKeys)
      (h : Unfit es key AsText) : HasFault (.mapping es) (.notText key)
  | badExclude {es : List (String × Yaml)} (h : Unfit es "exclude" AsTexts) :
      HasFault (.mapping es) .badExclude
  | badDepth {es : List (String × Yaml)} (h : Unfit es "max_descriptor_depth" AsInteger) :
      HasFault (.mapping es) .badDepth

/-- The place of a fault in the order of the checks. -/
def rank : SettingsFault → Nat
  | .notYaml | .notMapping => 0
  | .unknownKeys _ => 1
  | .missingKeys _ => 2
  | .notText key => 3 + textKeys.idxOf key
  | .badExclude => 9
  | .badDepth => 10

theorem rank_notText_lt (h : key ∈ textKeys) : rank (.notText key) < 9 := by
  have hlt : textKeys.idxOf key < 6 := List.idxOf_lt_length_of_mem h
  rw [rank]
  omega

/-- A check that looks for the faults of the ranks from `low` to below `high`. It
succeeds with something of which `P` holds, or fails with the first fault. -/
def Checks (v : Yaml) (low high : Nat) (P : α → Prop) : Except SettingsFault α → Prop
  | .ok a => P a ∧ ∀ g, HasFault v g → low ≤ rank g → high ≤ rank g
  | .error f => HasFault v f ∧ ∀ g, HasFault v g → low ≤ rank g → rank f ≤ rank g

theorem Checks.bind {low mid high : Nat} {P : α → Prop} {Q : β → Prop}
    {r : Except SettingsFault α} {f : α → Except SettingsFault β} (hr : Checks v low mid P r)
    (hf : ∀ a, P a → Checks v mid high Q (f a)) : Checks v low high Q (r >>= f) := by
  cases r with
  | error e => exact hr
  | ok a =>
    obtain ⟨ha, hclean⟩ := hr
    have hrest := hf a ha
    rw [show (Except.ok a >>= f) = f a from rfl]
    cases hfa : f a with
    | ok b =>
      rw [hfa] at hrest
      exact ⟨hrest.1, fun g hg hlow => hrest.2 g hg (hclean g hg hlow)⟩
    | error e =>
      rw [hfa] at hrest
      exact ⟨hrest.1, fun g hg hlow => hrest.2 g hg (hclean g hg hlow)⟩

/-- A check for the faults of one rank. -/
theorem Checks.single {n : Nat} {P : α → Prop} {r : Except SettingsFault α}
    (hok : ∀ a, r = .ok a → P a ∧ ∀ g, HasFault v g → rank g ≠ n)
    (herror : ∀ f, r = .error f → HasFault v f ∧ rank f = n) : Checks v n (n + 1) P r := by
  cases r with
  | ok a =>
    obtain ⟨ha, hclean⟩ := hok a rfl
    refine ⟨ha, fun g hg hle => ?_⟩
    have := hclean g hg
    omega
  | error f =>
    obtain ⟨hf, rfl⟩ := herror f rfl
    exact ⟨hf, fun _ _ hle => hle⟩

/-- How the setting of a key is read: as what stands there, or not at all. -/
theorem text?_cases (es : List (String × Yaml)) (key : String) :
    (∃ x, text? es key = .ok x ∧ Stands es key AsText x) ∨
    (text? es key = .error (.notText key) ∧ Unfit es key AsText) := by
  rw [text?]
  cases hv : Yaml.valueOf? es key with
  | none => exact .inl ⟨none, rfl, by simp [Stands, hv]⟩
  | some v =>
    cases v with
    | null => exact .inl ⟨none, rfl, by simp [Stands, hv]⟩
    | scalar s => exact .inl ⟨some s, rfl, _, hv, rfl⟩
    | sequence xs => exact .inr ⟨rfl, _, hv, by simp, by simp [AsText]⟩
    | mapping es' => exact .inr ⟨rfl, _, hv, by simp, by simp [AsText]⟩

theorem mapM_scalarText?_eq_some_iff {xs : List Yaml} {ss : List String} :
    xs.mapM scalarText? = some ss ↔ xs = ss.map .scalar := by
  induction xs generalizing ss with
  | nil => cases ss <;> simp
  | cons x xs ih =>
    rw [List.mapM_cons]
    cases x with
    | scalar s =>
      cases hxs : xs.mapM scalarText? with
      | some ss' =>
        cases ss <;> simp [scalarText?, hxs, ← ih]
      | none => cases ss <;> simp [scalarText?, hxs, ← ih]
    | _ => cases ss <;> simp [scalarText?]

theorem exclude?_cases (es : List (String × Yaml)) :
    (∃ x, exclude? es = .ok x ∧ Stands es "exclude" AsTexts x) ∨
    (exclude? es = .error .badExclude ∧ Unfit es "exclude" AsTexts) := by
  rw [exclude?]
  cases hv : Yaml.valueOf? es "exclude" with
  | none => exact .inl ⟨none, rfl, by simp [Stands, hv]⟩
  | some v =>
    cases v with
    | null => exact .inl ⟨none, rfl, by simp [Stands, hv]⟩
    | scalar s => exact .inl ⟨some [s], rfl, _, hv, .inl ⟨s, rfl, rfl⟩⟩
    | sequence xs =>
      simp only
      cases hxs : xs.mapM scalarText? with
      | some ss =>
        exact .inl ⟨some ss, rfl, _, hv, .inr (by rw [mapM_scalarText?_eq_some_iff.mp hxs])⟩
      | none =>
        refine .inr ⟨rfl, _, hv, by simp, ?_⟩
        rintro ss (⟨s, h, -⟩ | h)
        · cases h
        · rw [mapM_scalarText?_eq_some_iff.mpr (Yaml.sequence.inj h)] at hxs
          cases hxs
    | mapping es' => exact .inr ⟨rfl, _, hv, by simp, by simp [AsTexts]⟩

theorem maxDepth?_cases (es : List (String × Yaml)) :
    (∃ x, maxDepth? es = .ok x ∧ Stands es "max_descriptor_depth" AsInteger x) ∨
    (maxDepth? es = .error .badDepth ∧ Unfit es "max_descriptor_depth" AsInteger) := by
  rw [maxDepth?]
  cases hv : Yaml.valueOf? es "max_descriptor_depth" with
  | none => exact .inl ⟨none, rfl, by simp [Stands, hv]⟩
  | some v =>
    cases v with
    | null => exact .inl ⟨none, rfl, by simp [Stands, hv]⟩
    | scalar s =>
      simp only
      cases hn : Text.toInt? s with
      | some n => exact .inl ⟨some n, rfl, _, hv, s, rfl, hn⟩
      | none => exact .inr ⟨rfl, _, hv, by simp, by simp [AsInteger, hn]⟩
    | sequence xs => exact .inr ⟨rfl, _, hv, by simp, by simp [AsInteger]⟩
    | mapping es' => exact .inr ⟨rfl, _, hv, by simp, by simp [AsInteger]⟩

/-! ## One check after the other -/

/-- A check of one key finds the one fault that there can be under it. -/
theorem checks_key {As : Yaml → α → Prop} {r : Except SettingsFault (Option α)}
    (fault : SettingsFault) (hfault : Unfit es key As → HasFault (.mapping es) fault)
    (honly : ∀ g, HasFault (.mapping es) g → rank g = rank fault → Unfit es key As)
    (h : (∃ x, r = .ok x ∧ Stands es key As x) ∨ (r = .error fault ∧ Unfit es key As)) :
    Checks (.mapping es) (rank fault) (rank fault + 1) (Stands es key As) r := by
  rcases h with ⟨x, rfl, hx⟩ | ⟨rfl, hunfit⟩
  · refine .single ?_ (by simp)
    rintro _ ⟨⟩
    exact ⟨hx, fun g hg hrank => not_unfit_of_stands hx (honly g hg hrank)⟩
  · refine .single (by simp) ?_
    rintro _ ⟨⟩
    exact ⟨hfault hunfit, rfl⟩

theorem checks_text (hkey : key ∈ textKeys) {n : Nat} (hn : rank (.notText key) = n) :
    Checks (.mapping es) n (n + 1) (Stands es key AsText) (text? es key) := by
  subst hn
  refine checks_key (.notText key) (.notText hkey) (fun g hg hrank => ?_) (text?_cases es key)
  have hbefore := rank_notText_lt hkey
  cases hg with
  | notMapping h => exact absurd rfl (h es)
  | notText hkey' h =>
    obtain rfl := (List.idxOf_inj hkey').mp (Nat.add_left_cancel hrank)
    exact h
  | _ => simp only [rank] at hrank hbefore; omega

theorem checks_exclude : Checks (.mapping es) 9 10 (Stands es "exclude" AsTexts) (exclude? es) := by
  refine checks_key .badExclude .badExclude (fun g hg hrank => ?_) (exclude?_cases es)
  cases hg with
  | notMapping h => exact absurd rfl (h es)
  | badExclude h => exact h
  | notText hkey _ => exact absurd hrank (rank_notText_lt hkey).ne
  | _ => simp [rank] at hrank

theorem checks_maxDepth :
    Checks (.mapping es) 10 11 (Stands es "max_descriptor_depth" AsInteger) (maxDepth? es) := by
  refine checks_key .badDepth .badDepth (fun g hg hrank => ?_) (maxDepth?_cases es)
  cases hg with
  | notMapping h => exact absurd rfl (h es)
  | badDepth h => exact h
  | notText hkey _ => exact absurd hrank (Nat.lt_succ_of_lt (rank_notText_lt hkey)).ne
  | _ => simp [rank] at hrank

/-- Ends with a fault unless there is nothing to complain of. -/
def refuseUnless (ok : Bool) (f : SettingsFault) : Except SettingsFault Unit :=
  if ok then .ok () else .error f

theorem refuseUnless_bind (ok : Bool) (f : SettingsFault) (next : Unit → Except SettingsFault α) :
    (refuseUnless ok f >>= next) = if !ok then throw f >>= next else next () := by
  cases ok <;> rfl

def unknownKeysOf (es : List (String × Yaml)) : List String :=
  (es.map (·.1)).filter (!allKeys.contains ·)

def missingKeysOf (es : List (String × Yaml)) : List String :=
  requiredKeys.filter fun k => !isGiven (Yaml.valueOf? es k)

theorem mem_unknownKeysOf {k : String} :
    k ∈ unknownKeysOf es ↔ k ∈ es.map Prod.fst ∧ k ∉ allKeys := by
  simp [unknownKeysOf]

theorem mem_missingKeysOf {k : String} :
    k ∈ missingKeysOf es ↔ k ∈ requiredKeys ∧ Missing es k := by
  simp [missingKeysOf, isGiven_eq_false_iff]

/-- The checks of a mapping in their order. -/
theorem ofYaml_mapping (es : List (String × Yaml)) : ofYaml (.mapping es) = (do
    refuseUnless (unknownKeysOf es).isEmpty (.unknownKeys (unknownKeysOf es).eraseDups.mergeSort)
    refuseUnless (missingKeysOf es).isEmpty (.missingKeys (missingKeysOf es))
    let watchDir ← text? es "watch_dir"
    let outputDir ← text? es "output_dir"
    let conversionDir ← text? es "conversion_dir"
    let context ← text? es "context_name"
    let sceneType ← text? es "scene_type"
    let extension ← text? es "descriptor_extension"
    let exclude ← exclude? es
    let maxDepth ← maxDepth? es
    return ⟨watchDir.getD "", outputDir.getD "", conversionDir, context, sceneType, extension,
      exclude, maxDepth⟩) := by
  rw [refuseUnless_bind]
  simp only [refuseUnless_bind]
  rfl

/-- Keys are told in their order, and each of them once. -/
theorem pairwise_mergeSort_eraseDups (keys : List String) :
    keys.eraseDups.mergeSort.Pairwise (· < ·) := by
  have hsorted : keys.eraseDups.mergeSort.Pairwise fun a b => decide (a ≤ b) = true :=
    List.pairwise_mergeSort (by simpa using fun _ _ _ => le_trans) (by simpa using le_total) _
  have hdistinct : keys.eraseDups.mergeSort.Pairwise (· ≠ ·) :=
    (List.mergeSort_perm _ _).nodup_iff.mpr (Script.eraseDups_nodup keys)
  exact (hsorted.and hdistinct).imp fun h => lt_of_le_of_ne (of_decide_eq_true h.1) h.2

theorem hasFault_unknownKeys {k : String} (hk : k ∈ es.map Prod.fst) (hnot : k ∉ allKeys) :
    HasFault (.mapping es) (.unknownKeys (unknownKeysOf es).eraseDups.mergeSort) := by
  have hkeys (k : String) : k ∈ (unknownKeysOf es).eraseDups.mergeSort ↔
      k ∈ es.map Prod.fst ∧ k ∉ allKeys := by
    rw [List.mem_mergeSort, List.mem_eraseDups, mem_unknownKeysOf]
  exact .unknownKeys (List.ne_nil_of_mem ((hkeys k).mpr ⟨hk, hnot⟩)) hkeys
    (pairwise_mergeSort_eraseDups _)

theorem hasFault_missingKeys {k : String} (hk : k ∈ requiredKeys) (h : Missing es k) :
    HasFault (.mapping es) (.missingKeys (missingKeysOf es)) :=
  .missingKeys (List.ne_nil_of_mem (mem_missingKeysOf.mpr ⟨hk, h⟩))
    (fun _ => mem_missingKeysOf) List.filter_sublist

theorem checks_unknown : Checks (.mapping es) 0 2 (fun _ => ∀ e ∈ es, e.1 ∈ allKeys)
    (refuseUnless (unknownKeysOf es).isEmpty
      (.unknownKeys (unknownKeysOf es).eraseDups.mergeSort)) := by
  rw [refuseUnless]
  split
  · rename_i hnone
    rw [List.isEmpty_iff] at hnone
    have hknown (k : String) : ¬ (k ∈ es.map Prod.fst ∧ k ∉ allKeys) := by
      rw [← mem_unknownKeysOf, hnone]
      exact List.not_mem_nil
    refine ⟨fun e he => ?_, fun g hg _ => ?_⟩
    · by_contra hnot
      exact hknown e.1 ⟨List.mem_map_of_mem he, hnot⟩
    · cases hg with
      | notMapping h => exact absurd rfl (h es)
      | unknownKeys hsome hkeys =>
        obtain ⟨k, hk⟩ := List.exists_mem_of_ne_nil _ hsome
        exact absurd ((hkeys k).mp hk) (hknown k)
      | _ => simp only [rank]; omega
  · rename_i hsome
    rw [List.isEmpty_iff] at hsome
    obtain ⟨k, hk⟩ := List.exists_mem_of_ne_nil _ hsome
    obtain ⟨hmem, hnot⟩ := mem_unknownKeysOf.mp hk
    refine ⟨hasFault_unknownKeys hmem hnot, fun g hg _ => ?_⟩
    cases hg with
    | notMapping h => exact absurd rfl (h es)
    | _ => simp only [rank]; omega

theorem checks_missing : Checks (.mapping es) 2 3 (fun _ => ∀ k ∈ requiredKeys, ¬ Missing es k)
    (refuseUnless (missingKeysOf es).isEmpty (.missingKeys (missingKeysOf es))) := by
  rw [refuseUnless]
  split
  · rename_i hnone
    rw [List.isEmpty_iff] at hnone
    have hgiven (k : String) : ¬ (k ∈ requiredKeys ∧ Missing es k) := by
      rw [← mem_missingKeysOf, hnone]
      exact List.not_mem_nil
    refine ⟨fun k hk hmissing => hgiven k ⟨hk, hmissing⟩, fun g hg hrank => ?_⟩
    cases hg with
    | notMapping h => exact absurd rfl (h es)
    | missingKeys hsome hkeys =>
      obtain ⟨k, hk⟩ := List.exists_mem_of_ne_nil _ hsome
      exact absurd ((hkeys k).mp hk) (hgiven k)
    | _ => simp only [rank] at hrank ⊢; omega
  · rename_i hsome
    rw [List.isEmpty_iff] at hsome
    obtain ⟨k, hk⟩ := List.exists_mem_of_ne_nil _ hsome
    obtain ⟨hmem, hmissing⟩ := mem_missingKeysOf.mp hk
    exact ⟨hasFault_missingKeys hmem hmissing, fun _ _ hrank => hrank⟩

/-- Settings that say what stands under the keys. Both directories are given, and there
are no other keys. -/
structure Told (es : List (String × Yaml)) (s : Settings) : Prop where
  known : ∀ e ∈ es, e.1 ∈ allKeys
  watchDir : Stands es "watch_dir" AsText (some s.watchDir)
  outputDir : Stands es "output_dir" AsText (some s.outputDir)
  watchDir_ne : s.watchDir ≠ ""
  outputDir_ne : s.outputDir ≠ ""
  conversionDir : Stands es "conversion_dir" AsText s.conversionDir
  context : Stands es "context_name" AsText s.context
  sceneType : Stands es "scene_type" AsText s.sceneType
  extension : Stands es "descriptor_extension" AsText s.extension
  exclude : Stands es "exclude" AsTexts s.exclude
  maxDepth : Stands es "max_descriptor_depth" AsInteger s.maxDepth

/-- All checks together: the first fault, or settings that tell the whole mapping. -/
theorem checks_ofYaml (v : Yaml) :
    Checks v 0 11 (fun s => ∃ es, v = .mapping es ∧ Told es s) (ofYaml v) := by
  cases v with
  | mapping es =>
    rw [ofYaml_mapping]
    refine checks_unknown.bind fun _ hknown => checks_missing.bind fun _ hgiven => ?_
    refine (checks_text (by decide) (by decide)).bind fun watchDir hwatch => ?_
    refine (checks_text (by decide) (by decide)).bind fun outputDir houtput => ?_
    refine (checks_text (by decide) (by decide)).bind fun conversionDir hconversion => ?_
    refine (checks_text (by decide) (by decide)).bind fun context hcontext => ?_
    refine (checks_text (by decide) (by decide)).bind fun sceneType hsceneType => ?_
    refine (checks_text (by decide) (by decide)).bind fun extension hextension => ?_
    refine checks_exclude.bind fun exclude hexclude => ?_
    refine checks_maxDepth.bind fun maxDepth hmaxDepth => ?_
    -- both directories are given, so their defaults are not used
    obtain ⟨w, rfl, hw⟩ := exists_of_stands hwatch (hgiven _ (by decide))
    obtain ⟨o, rfl, ho⟩ := exists_of_stands houtput (hgiven _ (by decide))
    exact ⟨⟨es, rfl, hknown, hwatch, houtput, hw, ho, hconversion, hcontext, hsceneType,
      hextension, hexclude, hmaxDepth⟩, fun _ _ hrank => hrank⟩
  | _ => exact ⟨.notMapping (by simp), fun g _ _ => Nat.zero_le _⟩

/-! ## What settings tell -/

/-- There is one setting under a key. -/
theorem stands_unique {As : Yaml → α → Prop} {x y : Option α} (hx : Stands es key As x)
    (hy : Stands es key As y) (hAs : ∀ {v a b}, As v a → As v b → a = b)
    (hnull : ∀ a, ¬ As .null a) : x = y := by
  have hnone {a : α} (hsome : Stands es key As (some a)) : ¬ Stands es key As none := by
    obtain ⟨v, hv, ha⟩ := hsome
    intro hnothing
    rw [hnothing v hv] at ha
    exact hnull a ha
  cases x with
  | none =>
    cases y with
    | none => rfl
    | some b => exact absurd hx (hnone hy)
  | some a =>
    cases y with
    | none => exact absurd hy (hnone hx)
    | some b =>
      obtain ⟨v, hv, ha⟩ := hx
      obtain ⟨w, hw, hb⟩ := hy
      obtain rfl := Option.some.inj (hv.symm.trans hw)
      rw [hAs ha hb]

theorem stands_text_unique {x y : Option String} (hx : Stands es key AsText x)
    (hy : Stands es key AsText y) : x = y := by
  refine stands_unique hx hy (fun ha hb => ?_) (by simp [AsText])
  exact Yaml.scalar.inj (ha.symm.trans hb)

theorem asTexts_unique {ss ts : List String} (hs : AsTexts v ss) (ht : AsTexts v ts) :
    ss = ts := by
  rcases hs with ⟨s, rfl, rfl⟩ | rfl <;> rcases ht with ⟨t, h, rfl⟩ | h
  · rw [Yaml.scalar.inj h]
  · cases h
  · cases h
  · exact List.map_injective_iff.mpr (fun _ _ => Yaml.scalar.inj) (Yaml.sequence.inj h)

theorem asInteger_unique {m n : Int} (hm : AsInteger v m) (hn : AsInteger v n) : m = n := by
  obtain ⟨s, rfl, hs⟩ := hm
  obtain ⟨t, ht, htn⟩ := hn
  obtain rfl := Yaml.scalar.inj ht
  exact Option.some.inj (hs.symm.trans htn)

/-- A mapping tells at most one kind of settings. -/
theorem Told.unique {s s' : Settings} (h : Told es s) (h' : Told es s') : s = s' := by
  obtain ⟨watchDir, outputDir, conversionDir, context, sceneType, extension, exclude, maxDepth⟩ := s
  obtain rfl := Option.some.inj (stands_text_unique h.watchDir h'.watchDir)
  obtain rfl := Option.some.inj (stands_text_unique h.outputDir h'.outputDir)
  obtain rfl := stands_text_unique h.conversionDir h'.conversionDir
  obtain rfl := stands_text_unique h.context h'.context
  obtain rfl := stands_text_unique h.sceneType h'.sceneType
  obtain rfl := stands_text_unique h.extension h'.extension
  obtain rfl := stands_unique h.exclude h'.exclude asTexts_unique (by simp [AsTexts])
  obtain rfl := stands_unique h.maxDepth h'.maxDepth asInteger_unique (by simp [AsInteger])
  rfl

theorem Told.exists_text {s : Settings} (h : Told es s) (hkey : key ∈ textKeys) :
    ∃ x, Stands es key AsText x := by
  simp only [textKeys, List.mem_cons, List.not_mem_nil, or_false] at hkey
  rcases hkey with rfl | rfl | rfl | rfl | rfl | rfl
  · exact ⟨_, h.watchDir⟩
  · exact ⟨_, h.outputDir⟩
  · exact ⟨_, h.conversionDir⟩
  · exact ⟨_, h.context⟩
  · exact ⟨_, h.sceneType⟩
  · exact ⟨_, h.extension⟩

theorem not_missing_of_stands {s : String} (h : Stands es key AsText (some s)) (hs : s ≠ "") :
    ¬ Missing es key := by
  obtain ⟨v, hv, rfl⟩ := h
  intro hmissing
  simpa [hs] using hmissing _ hv

theorem Told.not_hasFault {s : Settings} (h : Told es s) (f : SettingsFault) :
    ¬ HasFault (.mapping es) f := by
  intro hf
  cases hf with
  | notMapping hnot => exact hnot es rfl
  | unknownKeys hsome hkeys =>
    obtain ⟨k, hk⟩ := List.exists_mem_of_ne_nil _ hsome
    obtain ⟨hmem, hnot⟩ := (hkeys k).mp hk
    obtain ⟨e, he, rfl⟩ := List.mem_map.mp hmem
    exact hnot (h.known e he)
  | missingKeys hsome hkeys =>
    obtain ⟨k, hk⟩ := List.exists_mem_of_ne_nil _ hsome
    obtain ⟨hrequired, hmissing⟩ := (hkeys k).mp hk
    rcases eq_of_mem_requiredKeys hrequired with rfl | rfl
    · exact not_missing_of_stands h.watchDir h.watchDir_ne hmissing
    · exact not_missing_of_stands h.outputDir h.outputDir_ne hmissing
  | notText hkey hunfit =>
    obtain ⟨x, hx⟩ := h.exists_text hkey
    exact not_unfit_of_stands hx hunfit
  | badExclude hunfit => exact not_unfit_of_stands h.exclude hunfit
  | badDepth hunfit => exact not_unfit_of_stands h.maxDepth hunfit

/-- The settings of a value are those that it tells. -/
theorem ofYaml_eq_ok_iff {s : Settings} :
    ofYaml v = .ok s ↔ ∃ es, v = .mapping es ∧ Told es s := by
  have hchecks := checks_ofYaml v
  constructor
  · intro h
    rw [h] at hchecks
    exact hchecks.1
  · rintro ⟨es, rfl, htold⟩
    cases hv : ofYaml (.mapping es) with
    | error f =>
      rw [hv] at hchecks
      exact absurd hchecks.1 (htold.not_hasFault f)
    | ok s' =>
      rw [hv] at hchecks
      obtain ⟨⟨_, ⟨⟩, htold'⟩, -⟩ := hchecks
      rw [htold.unique htold']

/-- A value that is refused is refused for its first fault. -/
theorem first_of_ofYaml_eq_error {f : SettingsFault} (h : ofYaml v = .error f) :
    HasFault v f ∧ ∀ g, HasFault v g → rank f ≤ rank g := by
  have hchecks := checks_ofYaml v
  rw [h] at hchecks
  exact ⟨hchecks.1, fun g hg => hchecks.2 g hg (Nat.zero_le _)⟩

/-! ## Settings as arguments -/

/-- What a configuration can be given under a name. -/
inductive Argument where
  | text (s : String)
  | texts (ss : List String)
  | integer (n : Int)
  deriving DecidableEq, Repr

namespace Argument

def text? : Argument → Option String
  | text s => some s
  | _ => none

def path? (a : Argument) : Option Path := a.text?.map Path.ofString

def texts? : Argument → Option (List String)
  | texts ss => some ss
  | _ => none

def integer? : Argument → Option Int
  | integer n => some n
  | _ => none

def names : List String :=
  ["watch_dir", "output_dir", "conversion_dir", "exclude_patterns", "context_name", "scene_type",
   "descriptor_extension", "max_descriptor_depth"]

end Argument

/-- The argument of a name that may be left out. -/
def optional (args : List (String × Argument)) (name : String) (read : Argument → Option α)
    (default : α) : Option α :=
  match args.lookup name with
  | some a => read a
  | none => some default

/-- The configuration of some arguments. All names have to be known, the directories have
to be given, and each argument has to be of its type. -/
def ofArguments? (args : List (String × Argument)) : Option Configuration := do
  guard (args.all fun a => Argument.names.contains a.1)
  let watchDir ← (args.lookup "watch_dir").bind Argument.path?
  let outputDir ← (args.lookup "output_dir").bind Argument.path?
  let conversionDir ← optional args "conversion_dir" (·.path?.map some) none
  let exclude ← optional args "exclude_patterns" Argument.texts? []
  let context ← optional args "context_name" Argument.text? Script.ConversionOptions.usual.context
  let sceneType ←
    optional args "scene_type" Argument.text? Script.ConversionOptions.usual.sceneType
  let extension ← optional args "descriptor_extension" Argument.text? Descriptor.extension
  let maxDepth ←
    optional args "max_descriptor_depth" Argument.integer? Descriptor.usualMaxDepth
  return ⟨watchDir, outputDir, conversionDir, exclude, context, sceneType, extension, maxDepth⟩

/-- The setting of a name, if it is there. -/
def argument? (s : Settings) : String → Option Argument
  | "watch_dir" => some (.text s.watchDir)
  | "output_dir" => some (.text s.outputDir)
  | "conversion_dir" => s.conversionDir.map .text
  | "exclude_patterns" => s.exclude.map .texts
  | "context_name" => s.context.map .text
  | "scene_type" => s.sceneType.map .text
  | "descriptor_extension" => s.extension.map .text
  | "max_descriptor_depth" => s.maxDepth.map .integer
  | _ => none

/-- The settings under the names that they have in a configuration. -/
def arguments (s : Settings) : List (String × Argument) :=
  Argument.names.filterMap fun name => (s.argument? name).map (name, ·)

/-- Arguments of the types that they should have, with both directories given. -/
structure WellTyped (args : List (String × Argument)) : Prop where
  required : ∀ name ∈ requiredKeys, ∃ s, args.lookup name = some (.text s) ∧ s ≠ ""
  texts : ∀ name ∈ textKeys, ∀ a, args.lookup name = some a → ∃ s, a = .text s
  exclude : ∀ a, args.lookup "exclude_patterns" = some a → ∃ ss, a = .texts ss
  maxDepth : ∀ a, args.lookup "max_descriptor_depth" = some a → ∃ n, a = .integer n
  known : ∀ a ∈ args, a.1 ∈ Argument.names
  distinct : (args.map Prod.fst).Nodup

variable {s : Settings}

theorem lookup_filterMap (value : String → Option α) (names : List String) (name : String) :
    (names.filterMap fun n => (value n).map (n, ·)).lookup name =
      if name ∈ names then value name else none := by
  induction names with
  | nil => rfl
  | cons n names ih =>
    by_cases hn : name = n
    · subst hn
      cases hvalue : value name <;> simp [hvalue, ih]
    · have hne : (name == n) = false := by simpa using hn
      cases hvalue : value n <;> simp [hvalue, ih, hn, List.lookup_cons, hne]

theorem lookup_arguments {name : String} (h : name ∈ Argument.names) :
    s.arguments.lookup name = s.argument? name := by
  rw [arguments, lookup_filterMap, if_pos h]

theorem names_arguments (s : Settings) :
    (s.arguments.map Prod.fst).Sublist Argument.names := by
  rw [arguments]
  induction Argument.names with
  | nil => exact .slnil
  | cons name names ih =>
    rw [List.filterMap_cons]
    cases s.argument? name with
    | none => exact ih.cons _
    | some a => exact ih.cons_cons _

theorem exists_text_argument {name : String} (h : name ∈ textKeys) :
    ∃ x : Option String, s.argument? name = x.map .text := by
  simp only [textKeys, List.mem_cons, List.not_mem_nil, or_false] at h
  rcases h with rfl | rfl | rfl | rfl | rfl | rfl
  · exact ⟨some s.watchDir, rfl⟩
  · exact ⟨some s.outputDir, rfl⟩
  · exact ⟨s.conversionDir, rfl⟩
  · exact ⟨s.context, rfl⟩
  · exact ⟨s.sceneType, rfl⟩
  · exact ⟨s.extension, rfl⟩

theorem wellTyped_arguments (hwatch : s.watchDir ≠ "") (houtput : s.outputDir ≠ "") :
    WellTyped s.arguments where
  required := by
    intro name hname
    rcases eq_of_mem_requiredKeys hname with rfl | rfl
    · exact ⟨_, lookup_arguments (by decide), hwatch⟩
    · exact ⟨_, lookup_arguments (by decide), houtput⟩
  texts := by
    have hnames : ∀ name ∈ textKeys, name ∈ Argument.names := by decide
    intro name hname a ha
    obtain ⟨x, hx⟩ := exists_text_argument (s := s) hname
    rw [lookup_arguments (hnames name hname), hx] at ha
    obtain ⟨t, -, rfl⟩ := Option.map_eq_some_iff.mp ha
    exact ⟨t, rfl⟩
  exclude := by
    intro a ha
    rw [lookup_arguments (by decide)] at ha
    obtain ⟨ss, -, rfl⟩ := Option.map_eq_some_iff.mp ha
    exact ⟨ss, rfl⟩
  maxDepth := by
    intro a ha
    rw [lookup_arguments (by decide)] at ha
    obtain ⟨n, -, rfl⟩ := Option.map_eq_some_iff.mp ha
    exact ⟨n, rfl⟩
  known := fun a ha => s.names_arguments.subset (List.mem_map_of_mem ha)
  distinct := s.names_arguments.nodup (by decide)

/-- An argument that settings leave out has its default. -/
theorem optional_arguments (name : String) (hname : name ∈ Argument.names) {x : Option α}
    {type : α → Argument} (hx : s.argument? name = x.map type) {read : Argument → Option α}
    (hread : ∀ a, read (type a) = some a) (default : α) :
    optional s.arguments name read default = some (x.getD default) := by
  rw [optional, lookup_arguments hname, hx]
  cases x with
  | none => rfl
  | some a => exact hread a

/-- Settings give the configuration of their arguments. -/
theorem ofArguments?_arguments (s : Settings) :
    ofArguments? s.arguments = some (s.configuration ⟨.relative, []⟩) := by
  have hknown : (s.arguments.all fun a => Argument.names.contains a.1) = true := by
    simpa using fun n a h => s.names_arguments.subset (List.mem_map_of_mem h)
  have hpath : Path.join ⟨.relative, []⟩ = id := by
    funext p
    obtain ⟨anchor, names⟩ := p
    cases anchor <;> simp [Path.join, Path.isAbsolute]
  have hconversion : optional s.arguments "conversion_dir" (·.path?.map some) none =
      some (s.conversionDir.map Path.ofString) := by
    rw [optional, lookup_arguments (by decide), argument?]
    cases s.conversionDir <;> rfl
  have hexclude : optional s.arguments "exclude_patterns" Argument.texts? [] =
      some (s.exclude.getD []) :=
    optional_arguments "exclude_patterns" (by decide) rfl (fun _ => rfl) _
  have htext (name : String) (hname : name ∈ Argument.names) {x : Option String}
      (hx : s.argument? name = x.map .text) (default : String) :
      optional s.arguments name Argument.text? default = some (x.getD default) :=
    optional_arguments name hname hx (fun _ => rfl) default
  have hmaxDepth : optional s.arguments "max_descriptor_depth" Argument.integer?
      Descriptor.usualMaxDepth = some (s.maxDepth.getD Descriptor.usualMaxDepth) :=
    optional_arguments "max_descriptor_depth" (by decide) rfl (fun _ => rfl) _
  rw [ofArguments?, hknown, lookup_arguments (by decide), lookup_arguments (by decide),
    hconversion, hexclude, htext "context_name" (by decide) rfl,
    htext "scene_type" (by decide) rfl, htext "descriptor_extension" (by decide) rfl, hmaxDepth]
  simp [argument?, Argument.path?, Argument.text?, configuration, hpath]

/-! ## Acceptance -/

/-- All that can be wrong in a value: it is no mapping, or it has a key that is not known,
a required one under which there is nothing, or one under which there is something else
than its setting. -/
def Faulty (v : Yaml) : Prop :=
  (∀ es, v ≠ .mapping es) ∨
    ∃ es, v = .mapping es ∧
      ((∃ e ∈ es, e.1 ∉ allKeys) ∨ (∃ key ∈ requiredKeys, Missing es key) ∨
        (∃ key ∈ textKeys, Unfit es key AsText) ∨ Unfit es "exclude" AsTexts ∨
        Unfit es "max_descriptor_depth" AsInteger)

theorem exists_hasFault_iff : (∃ f, HasFault v f) ↔ Faulty v := by
  constructor
  · rintro ⟨f, hf⟩
    cases hf with
    | notMapping h => exact .inl h
    | unknownKeys hsome hkeys =>
      obtain ⟨k, hk⟩ := List.exists_mem_of_ne_nil _ hsome
      obtain ⟨hmem, hnot⟩ := (hkeys k).mp hk
      obtain ⟨e, he, rfl⟩ := List.mem_map.mp hmem
      exact .inr ⟨_, rfl, .inl ⟨e, he, hnot⟩⟩
    | missingKeys hsome hkeys =>
      obtain ⟨k, hk⟩ := List.exists_mem_of_ne_nil _ hsome
      exact .inr ⟨_, rfl, .inr (.inl ⟨k, (hkeys k).mp hk⟩)⟩
    | notText hkey h => exact .inr ⟨_, rfl, .inr (.inr (.inl ⟨_, hkey, h⟩))⟩
    | badExclude h => exact .inr ⟨_, rfl, .inr (.inr (.inr (.inl h)))⟩
    | badDepth h => exact .inr ⟨_, rfl, .inr (.inr (.inr (.inr h)))⟩
  · rintro (h | ⟨es, rfl, ⟨e, he, hnot⟩ | ⟨k, hk, h⟩ | ⟨k, hk, h⟩ | h | h⟩)
    · exact ⟨_, .notMapping h⟩
    · exact ⟨_, hasFault_unknownKeys (List.mem_map_of_mem he) hnot⟩
    · exact ⟨_, hasFault_missingKeys hk h⟩
    · exact ⟨_, .notText hk h⟩
    · exact ⟨_, .badExclude h⟩
    · exact ⟨_, .badDepth h⟩

/-- Values are refused for the faults that they have, and each for its first one. All
others give settings that tell the whole mapping, and these are arguments of the right
types from which there is a configuration. -/
theorem settings_refused_or_told (v : Yaml) :
    ((∃ f, ofYaml v = .error f) ↔ Faulty v) ∧
    ((∃ f, ofYaml v = .error f ∧ HasFault v f ∧ ∀ g, HasFault v g → rank f ≤ rank g) ∨
      ∃ es s, v = .mapping es ∧ ofYaml v = .ok s ∧ Told es s ∧ WellTyped s.arguments ∧
        ofArguments? s.arguments = some (s.configuration ⟨.relative, []⟩)) := by
  rw [← exists_hasFault_iff]
  cases hv : ofYaml v with
  | error f =>
    obtain ⟨hf, hfirst⟩ := first_of_ofYaml_eq_error hv
    exact ⟨⟨fun _ => ⟨f, hf⟩, fun _ => ⟨f, rfl⟩⟩, .inl ⟨f, rfl, hf, hfirst⟩⟩
  | ok s =>
    obtain ⟨es, rfl, htold⟩ := ofYaml_eq_ok_iff.mp hv
    refine ⟨⟨by rintro ⟨_, ⟨⟩⟩, fun ⟨f, hf⟩ => absurd hf (htold.not_hasFault f)⟩,
      .inr ⟨es, s, rfl, rfl, htold, ?_, ?_⟩⟩
    · exact wellTyped_arguments htold.watchDir_ne htold.outputDir_ne
    · exact ofArguments?_arguments s

/-- An unknown key is told before a required one that has nothing under it. -/
example : ofYaml (.mapping [("watch_dir", .scalar ""), ("colour", .null)]) =
    .error (.unknownKeys ["colour"]) := by
  cbv

end SceneSync.Settings
