import Mathlib
import SceneSync.Json.Read
import SceneSync.Text.Quoted

/-!
# Quoted text is read back

A text between quotes is written in printable ASCII. A reader of JSON strings undoes the
escapes one by one, pairs of surrogates among them, and stops at the closing quote.
-/

namespace SceneSync.Text

open Json

variable {c : Char} {cs ds rest opening done : List Char} {n : Nat}

/-! ## Hexadecimal digits -/

theorem hexValue?_hexDigit (h : n < 16) : hexValue? (hexDigit n) = some n := by
  have hall : ∀ k : Fin 16, hexValue? (hexDigit k) = some k.val := by decide
  exact hall ⟨n, h⟩

theorem hex_four (n : Nat) : hex 4 n = [hexDigit (n / 16 / 16 / 16 % 16),
    hexDigit (n / 16 / 16 % 16), hexDigit (n / 16 % 16), hexDigit (n % 16)] := by
  simp [hex]

/-- Four digits are enough for sixteen bits. -/
theorem hexFour?_hex (h : n < 0x10000) (rest : List Char) :
    hexFour? (hex 4 n ++ rest) = some n := by
  have hdigit (k : Nat) : hexValue? (hexDigit (k % 16)) = some (k % 16) :=
    hexValue?_hexDigit (Nat.mod_lt k (by omega))
  have hvalue : ((n / 16 / 16 / 16 % 16 * 16 + n / 16 / 16 % 16) * 16 + n / 16 % 16) * 16 + n % 16 =
      n := by
    omega
  simp [hex_four, hexFour?, hdigit, hvalue]

theorem drop_hex (n : Nat) (rest : List Char) : (hex 4 n ++ rest).drop 4 = rest :=
  List.drop_left' (hex_length 4 n)

/-! ## Escapes -/

theorem isHighSurrogate_iff : isHighSurrogate n = true ↔ 0xD800 ≤ n ∧ n ≤ 0xDBFF := by
  simp [isHighSurrogate]

theorem isLowSurrogate_iff : isLowSurrogate n = true ↔ 0xDC00 ≤ n ∧ n ≤ 0xDFFF := by
  simp [isLowSurrogate]

/-- A character is no half of a pair. -/
theorem charOf_toNat (c : Char) : charOf c.toNat = c := by
  have hvalid : c.toNat < 0xD800 ∨ 0xDFFF < c.toNat ∧ c.toNat < 0x110000 := c.valid
  have hscalar : ¬ (0xD800 ≤ c.toNat ∧ c.toNat ≤ 0xDFFF) := by omega
  rw [charOf, if_neg (by simpa using hscalar), Char.ofNat_toNat]

theorem unicodeEscape_hex (h : c.toNat < 0x10000) (hrest : rest ≠ []) :
    Json.unicodeEscape (hex 4 c.toNat ++ rest) = .ok (c, rest) := by
  have hvalid : c.toNat < 0xD800 ∨ 0xDFFF < c.toNat ∧ c.toNat < 0x110000 := c.valid
  have hhigh : isHighSurrogate c.toNat = false := by
    rw [← Bool.not_eq_true, isHighSurrogate_iff]
    omega
  rw [Json.unicodeEscape]
  simp only [drop_hex, hexFour?_hex h, List.isEmpty_eq_false_iff.mpr hrest, hhigh, charOf_toNat,
    Bool.false_and, Bool.false_eq_true, if_false]
  split <;> rfl

/-- The halves of a pair make up the character. -/
theorem unicodeEscape_pair (h : 0x10000 ≤ c.toNat) (hrest : rest ≠ []) :
    Json.unicodeEscape (hex 4 (surrogates c.toNat).1 ++
      (unicodeEscape (surrogates c.toNat).2 ++ rest)) = .ok (c, rest) := by
  have hvalid : c.toNat < 0xD800 ∨ 0xDFFF < c.toNat ∧ c.toNat < 0x110000 := c.valid
  have hfirst : (surrogates c.toNat).1 < 0x10000 := by simp only [surrogates]; omega
  have hsecond : (surrogates c.toNat).2 < 0x10000 := by simp only [surrogates]; omega
  have hhigh : isHighSurrogate (surrogates c.toNat).1 = true := by
    rw [isHighSurrogate_iff]
    simp only [surrogates]
    omega
  have hlow : isLowSurrogate (surrogates c.toNat).2 = true := by
    rw [isLowSurrogate_iff]
    simp only [surrogates]
    omega
  have hwhole : ((surrogates c.toNat).1 - 0xD800) * 0x400 + ((surrogates c.toNat).2 - 0xDC00) +
      0x10000 = c.toNat := by
    simp only [surrogates]
    omega
  rw [Json.unicodeEscape]
  simp [drop_hex, hexFour?_hex hfirst, hexFour?_hex hsecond, unicodeEscape, hhigh, hlow, hrest,
    hwhole, charOf_toNat]

/-- A character stands for itself, or an escape stands for it. -/
theorem asciiChar_cases (c : Char) :
    (asciiChar c = [c] ∧ c ≠ '"' ∧ c ≠ '\\' ∧ 0x20 ≤ c.toNat) ∨
      ∃ d ds, asciiChar c = '\\' :: d :: ds ∧
        ∀ rest, rest ≠ [] → escape (d :: ds ++ rest) = .ok (c, rest) := by
  have hescape (d : Char) {e : Char} (he : e = c)
      (h : ∀ rest, escape (d :: rest) = .ok (e, rest)) :
      ∃ d' ds, ['\\', d] = '\\' :: d' :: ds ∧
        ∀ rest, rest ≠ [] → escape (d' :: ds ++ rest) = .ok (c, rest) :=
    ⟨d, [], rfl, fun rest _ => by rw [← he]; exact h rest⟩
  have hof {k : Nat} (hk : c.toNat = k) : Char.ofNat k = c := by rw [← hk, Char.ofNat_toNat]
  rw [asciiChar]
  by_cases hquote : c = '"'
  · exact .inr (by simpa [hquote] using hescape '"' hquote.symm fun _ => rfl)
  by_cases hback : c = '\\'
  · exact .inr (by simpa [hback] using hescape '\\' hback.symm fun _ => rfl)
  by_cases hfeed : c = '\n'
  · exact .inr (by simpa [hfeed] using hescape 'n' hfeed.symm fun _ => rfl)
  by_cases hreturn : c = '\r'
  · exact .inr (by simpa [hreturn] using hescape 'r' hreturn.symm fun _ => rfl)
  by_cases htab : c = '\t'
  · exact .inr (by simpa [htab] using hescape 't' htab.symm fun _ => rfl)
  simp only [beq_iff_eq, hquote, hback, hfeed, hreturn, htab, if_false]
  split
  · exact .inr (hescape 'f' (hof ‹_›) fun _ => rfl)
  split
  · exact .inr (hescape 'b' (hof ‹_›) fun _ => rfl)
  split
  · rename_i hplain
    simp only [Bool.and_eq_true, decide_eq_true_eq] at hplain
    exact .inl ⟨rfl, hquote, hback, hplain.1⟩
  split
  · rename_i hshort
    refine .inr ⟨'u', hex 4 c.toNat, rfl, fun rest hrest => ?_⟩
    rw [List.cons_append, escape, unicodeEscape_hex hshort hrest]
  · rename_i hlong
    refine .inr ⟨'u', hex 4 (surrogates c.toNat).1 ++ unicodeEscape (surrogates c.toNat).2, rfl,
      fun rest hrest => ?_⟩
    rw [List.cons_append, List.append_assoc, escape, unicodeEscape_pair (by omega) hrest]

/-! ## Strings -/

theorem stringTail_plain (hquote : c ≠ '"') (hback : c ≠ '\\') (hplain : 0x20 ≤ c.toNat)
    (opening ds done : List Char) :
    stringTail opening (c :: ds) done = stringTail opening ds (c :: done) := by
  rw [stringTail.eq_def]
  split <;> simp_all

theorem stringTail_escape {d : Char} (h : escape (d :: ds) = .ok (c, rest))
    (opening done : List Char) :
    stringTail opening ('\\' :: d :: ds) done = stringTail opening rest (c :: done) := by
  rw [stringTail]
  split
  · rename_i heq
    cases h.symm.trans heq
  · rename_i heq
    obtain ⟨rfl, rfl⟩ := Prod.mk.inj (Except.ok.inj (h.symm.trans heq))
    rfl

theorem stringTail_quote (opening ds done : List Char) :
    stringTail opening ('"' :: ds) done = .ok (String.ofList done.reverse, ds) := by
  rw [stringTail]

theorem stringTail_flatMap (opening cs rest done : List Char) :
    stringTail opening (cs.flatMap asciiChar ++ '"' :: rest) done =
      .ok (String.ofList (done.reverse ++ cs), rest) := by
  induction cs generalizing done with
  | nil => simp [stringTail_quote]
  | cons c cs ih =>
    rw [List.flatMap_cons, List.append_assoc]
    rcases asciiChar_cases c with ⟨hself, hquote, hback, hplain⟩ | ⟨d, ds, hescaped, hread⟩
    · rw [hself, List.singleton_append, stringTail_plain hquote hback hplain, ih]
      simp
    · have hthis := hread (cs.flatMap asciiChar ++ '"' :: rest) (by simp)
      rw [hescaped, List.cons_append, List.cons_append]
      rw [List.cons_append] at hthis
      rw [stringTail_escape hthis, ih]
      simp

/-! ## The characters of a quoted text -/

def isPrintableAscii (c : Char) : Bool := 0x20 ≤ c.toNat && c.toNat ≤ 0x7E

theorem hexDigit_printable (h : n < 16) : isPrintableAscii (hexDigit n) = true := by
  have hall : ∀ k : Fin 16, isPrintableAscii (hexDigit k) = true := by decide
  exact hall ⟨n, h⟩

theorem unicodeEscape_printable (n : Nat) :
    ∀ d ∈ unicodeEscape n, isPrintableAscii d = true := by
  have hdigit (k : Nat) : isPrintableAscii (hexDigit (k % 16)) = true :=
    hexDigit_printable (Nat.mod_lt k (by omega))
  have hmark : isPrintableAscii '\\' = true ∧ isPrintableAscii 'u' = true := by decide
  simp [unicodeEscape, hex_four, hdigit, hmark]

theorem asciiChar_printable (c : Char) : ∀ d ∈ asciiChar c, isPrintableAscii d = true := by
  rw [asciiChar]
  split_ifs with _ _ _ _ _ _ _ hplain
  iterate 7 exact fun d hd => by fin_cases hd <;> decide
  · simpa [isPrintableAscii] using hplain
  · exact unicodeEscape_printable _
  · intro d hd
    rcases List.mem_append.mp hd with hd | hd
    · exact unicodeEscape_printable _ d hd
    · exact unicodeEscape_printable _ d hd

theorem asciiString_printable (cs : List Char) :
    ∀ d ∈ asciiString cs, isPrintableAscii d = true := by
  intro d hd
  simp only [asciiString, List.cons_append, List.mem_cons, List.mem_append, List.mem_flatMap,
    List.not_mem_nil, or_false] at hd
  rcases hd with rfl | ⟨c, -, hd⟩ | rfl
  · decide
  · exact asciiChar_printable c d hd
  · decide

end SceneSync.Text
