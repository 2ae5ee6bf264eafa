import Mathlib
import SceneSync.Extensions
import SceneSync.Proofs.Text.Quoted
import SceneSync.Text.Lines

/-!
# Fields are read back

The declaration of a scene's fields says which fields they are: a reader of its lines gives
them back, whatever characters their names have. A key that is quoted cannot be taken for a
plain one, and it ends at its closing quote and nowhere else.
-/

namespace SceneSync

/-! ## Lines -/

namespace Text

variable {cs ds : List Char}

theorem lines_of_noFeed (h : '\n' ∉ cs) : lines cs = [cs] := by
  induction cs with
  | nil => rfl
  | cons c cs ih =>
    have hc : (c == '\n') = false := by
      simpa using fun he : c = '\n' => h (by simp [he])
    rw [lines, hc, if_neg Bool.false_ne_true, ih fun hmem => h (by simp [hmem])]

theorem lines_append (h : '\n' ∉ cs) (ds : List Char) :
    lines (cs ++ '\n' :: ds) = cs :: lines ds := by
  induction cs with
  | nil => simp [lines]
  | cons c cs ih =>
    have hc : (c == '\n') = false := by
      simpa using fun he : c = '\n' => h (by simp [he])
    rw [List.cons_append, lines, hc, if_neg Bool.false_ne_true, ih fun hmem => h (by simp [hmem])]

/-- Lines that are put together are the lines of the text. -/
theorem lines_intercalate {ls : List String} (hne : ls ≠ []) (h : ∀ l ∈ ls, '\n' ∉ l.toList) :
    lines ("\n".intercalate ls).toList = ls.map String.toList := by
  induction ls with
  | nil => exact absurd rfl hne
  | cons l ls ih =>
    have hl := h l (by simp)
    cases ls with
    | nil => simp [String.intercalate_singleton, lines_of_noFeed hl]
    | cons m ms =>
      have hrest := ih (by simp) fun k hk => h k (List.mem_cons_of_mem l hk)
      rw [String.intercalate_cons_cons, String.toList_append, String.toList_append,
        List.append_assoc, show "\n".toList = ['\n'] from rfl, List.singleton_append,
        lines_append hl, hrest]
      rfl

end Text

/-! ## Keys -/

namespace Field

variable {c : Char} {name : String}

/-- The characters of a plain key are letters, digits and two more. -/
theorem continuesKey_apart (h : continuesKey c = true) : c ≠ ':' ∧ c ≠ '"' ∧ c ≠ '\n' := by
  refine ⟨?_, ?_, ?_⟩ <;>
    · rintro rfl
      revert h
      decide

theorem isPlainKey_apart {cs : List Char} (h : isPlainKey cs = true) :
    ∀ c ∈ cs, c ≠ ':' ∧ c ≠ '"' ∧ c ≠ '\n' := by
  cases cs with
  | nil => simp
  | cons d ds =>
    rw [isPlainKey, Bool.and_eq_true] at h
    have hd : continuesKey d = true := by simp [continuesKey, h.1]
    intro c hc
    rcases List.mem_cons.mp hc with rfl | hc
    · exact continuesKey_apart hd
    · exact continuesKey_apart (List.all_eq_true.mp h.2 c hc)

theorem key_of_plain (h : isPlainKey name.toList = true) : key name = name := by
  rw [key, if_pos h]

theorem key_of_quoted (h : ¬ isPlainKey name.toList = true) :
    (key name).toList = Text.asciiString name.toList := by
  rw [key, if_neg h, String.toList_ofList]

theorem noFeed_key (name : String) : '\n' ∉ (key name).toList := by
  by_cases hplain : isPlainKey name.toList = true
  · rw [key_of_plain hplain]
    exact fun hmem => (isPlainKey_apart hplain _ hmem).2.2 rfl
  · rw [key_of_quoted hplain]
    intro hmem
    have hprintable := Text.asciiString_printable name.toList _ hmem
    revert hprintable
    decide

/-- A quoted key is a string of JSON. -/
theorem read_key (h : ¬ isPlainKey name.toList = true) :
    Json.read (key name).toList = .ok (.string name) := by
  have htail (opening : List Char) : Json.stringTail opening
      (name.toList.flatMap Text.asciiChar ++ ['"']) [] = .ok (name, []) := by
    rw [Text.stringTail_flatMap]
    simp
  have hvalue (cs : List Char) (nested : Bool → List Char → Json.Reading Json)
      (hcs : cs = Text.asciiString name.toList) :
      Json.valueWith nested cs = .ok (.string name, []) := by
    subst hcs
    simp only [Text.asciiString, List.cons_append, Json.valueWith, htail]
    rfl
  have hwhole : Json.whole (Text.asciiString name.toList) = .ok (.string name) := by
    have hblanks : Json.skipBlanks (Text.asciiString name.toList) =
        Text.asciiString name.toList := rfl
    have hmark : ((Text.asciiString name.toList).head? == some (Char.ofNat 0xFEFF)) = false := rfl
    rw [Json.whole, hmark, hblanks, show Json.maxNesting = 999 + 1 from rfl, Json.valueTo,
      hvalue _ _ rfl]
    rfl
  rw [key_of_quoted h, Json.read, hwhole]

end Field

namespace Extensions

/-- Reads the key at the head of a line, and what stands behind it. A plain key stands for
itself, and a quoted one is a string of JSON. -/
def readKey : List Char → Option (String × List Char)
  | '"' :: cs => (Json.stringTail ('"' :: cs) cs []).toOption
  | cs => some (String.ofList (cs.takeWhile (· != ':')), cs.dropWhile (· != ':'))

/-- Reads a line: a key, a type behind the colon, and a semicolon. -/
def readField (line : List Char) : Option Field := do
  let body ← "  ".toList.isPrefixOf? line
  let (name, rest) ← readKey body
  let type ← ": ".toList.isPrefixOf? rest
  if type.getLast? = some ';' then some ⟨name, String.ofList type.dropLast⟩ else none

/-- Reads the lines of a declaration between the first and the last one. -/
def readFields (text : String) : Option (List Field) :=
  ((Text.lines text.toList).drop 1).dropLast.mapM readField

variable {fields : List Field}

/-- A key ends before the colon that stands behind it. -/
theorem readKey_key (name : String) (rest : List Char) :
    readKey ((Field.key name).toList ++ ':' :: rest) = some (name, ':' :: rest) := by
  by_cases hplain : Field.isPlainKey name.toList = true
  · have hapart := Field.isPlainKey_apart hplain
    have hname : ∀ c ∈ name.toList, (c != ':') = true := by
      intro c hc
      simpa using (hapart c hc).1
    rw [Field.key_of_plain hplain]
    cases hcs : name.toList with
    | nil => simp [hcs, Field.isPlainKey] at hplain
    | cons c cs =>
      have hquote : c ≠ '"' := (hapart c (by simp [hcs])).2.1
      rw [readKey.eq_def]
      rw [hcs] at hname
      split
      · simp_all
      · rw [List.takeWhile_append_of_pos hname, List.dropWhile_append_of_pos hname]
        simp [← hcs]
  · rw [Field.key_of_quoted hplain, Text.asciiString, List.cons_append, List.cons_append, readKey,
      List.append_assoc, List.singleton_append, Text.stringTail_flatMap]
    simp [Except.toOption]

theorem readField_render (f : Field) : readField ("  " ++ f.render).toList = some f := by
  have htext : ("  " ++ f.render).toList =
      ' ' :: ' ' :: ((Field.key f.name).toList ++ ':' :: ' ' :: (f.type.toList ++ [';'])) := by
    simp [Field.render, String.toList_append]
  rw [htext, readField]
  simp [readKey_key, List.isPrefixOf?]

theorem noFeed_render {f : Field} (h : '\n' ∉ f.type.toList) :
    '\n' ∉ ("  " ++ f.render).toList := by
  simp [Field.render, String.toList_append, Field.noFeed_key, h]

theorem readFields_render (h : ∀ f ∈ fields, '\n' ∉ f.type.toList) :
    readFields (render fields) = some fields := by
  have hlines : Text.lines (render fields).toList =
      (("export type " ++ typeName ++ " = \x7b") ::
        fields.map (fun f => "  " ++ f.render) ++ ["\x7d;"]).map String.toList := by
    refine Text.lines_intercalate (by simp) fun l hl => ?_
    simp only [List.cons_append, List.mem_cons, List.mem_append, List.mem_map, List.not_mem_nil,
      or_false] at hl
    rcases hl with rfl | ⟨f, hf, rfl⟩ | rfl
    · decide
    · exact noFeed_render (h f hf)
    · decide
  have hmiddle : ((Text.lines (render fields).toList).drop 1).dropLast =
      fields.map fun f => ("  " ++ f.render).toList := by
    simp [hlines]
  rw [readFields, hmiddle]
  clear h hlines hmiddle
  induction fields with
  | nil => rfl
  | cons f fields ih => rw [List.map_cons, List.mapM_cons, readField_render, ih]; rfl

theorem key_injective : Function.Injective Field.key := by
  intro name name' h
  have hread := readKey_key name []
  rw [h, readKey_key name' []] at hread
  exact (Prod.mk.inj (Option.some.inj hread)).1.symm

/-- Fields with types of one line are read back from their declaration, so no two lists of
fields have the same. A plain name is its own key. Any other name has a quoted key of
printable ASCII, which is the name as a string of JSON. No key is that of two names, and
none goes on in what stands behind it. -/
theorem render_read_back (h : ∀ f ∈ fields, '\n' ∉ f.type.toList) :
    readFields (render fields) = some fields ∧
    (∀ fields' : List Field, (∀ f ∈ fields', '\n' ∉ f.type.toList) →
      render fields' = render fields → fields' = fields) ∧
    (∀ name, Field.isPlainKey name.toList = true → Field.key name = name) ∧
    (∀ name, ¬ Field.isPlainKey name.toList = true →
      Json.read (Field.key name).toList = .ok (.string name) ∧
      ∀ c ∈ (Field.key name).toList, ' ' ≤ c ∧ c ≤ '~') ∧
    Function.Injective Field.key ∧
    ∀ name rest, readKey ((Field.key name).toList ++ ':' :: rest) = some (name, ':' :: rest) := by
  refine ⟨readFields_render h, fun fields' h' heq => ?_, fun name => Field.key_of_plain,
    fun name hquoted => ⟨Field.read_key hquoted, fun c hc => ?_⟩, key_injective, readKey_key⟩
  · have hread := readFields_render h'
    rw [heq, readFields_render h] at hread
    exact (Option.some.inj hread).symm
  · rw [Field.key_of_quoted hquoted] at hc
    have hprintable := Text.asciiString_printable name.toList c hc
    simp only [Text.isPrintableAscii, Bool.and_eq_true, decide_eq_true_eq] at hprintable
    exact hprintable

/-- A name with a quote, a line feed and a character outside of the first plane. -/
def hardFields : List Field :=
  [⟨"hero", "Phaser.GameObjects.Image"⟩, ⟨"", "any"⟩, ⟨"a\"\n😀: b;", "Hero | Villain"⟩]

theorem render_read_back_hard : (∀ f ∈ hardFields, '\n' ∉ f.type.toList) ∧
    readFields (render hardFields) = some hardFields := by
  have hfeed : ∀ f ∈ hardFields, '\n' ∉ f.type.toList := by decide
  exact ⟨hfeed, (render_read_back hfeed).1⟩

end Extensions

end SceneSync
