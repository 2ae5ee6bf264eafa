import Mathlib
import SceneSync.Text.Utf8

/-!
# Reading what was encoded

Every text survives its encoding in UTF-8. Between two character boundaries of
encoded text stands encoded text again.
-/

namespace SceneSync.Text

/-! ## One character -/

theorem isContinuation_iff (b : UInt8) :
    isContinuation b = true ↔ 128 ≤ b.toNat ∧ b.toNat ≤ 191 := by
  simp [isContinuation, UInt8.le_iff_toNat_le]

/-- A second byte fits its lead byte unless the form is overlong, a surrogate or out of range. -/
theorem continues_iff (l b : UInt8) :
    continues l b = true ↔ 128 ≤ b.toNat ∧ b.toNat ≤ 191 ∧
      (l.toNat = 0xE0 → 160 ≤ b.toNat) ∧ (l.toNat = 0xED → b.toNat ≤ 159) ∧
      (l.toNat = 0xF0 → 144 ≤ b.toNat) ∧ (l.toNat = 0xF4 → b.toNat ≤ 143) := by
  simp only [continues, beq_iff_eq, ← UInt8.toNat_inj, UInt8.reduceToNat]
  split_ifs <;>
    simp only [Bool.and_eq_true, decide_eq_true_eq, UInt8.le_iff_toNat_le, UInt8.reduceToNat,
      isContinuation_iff] <;> omega

theorem decodeOne_one {b : UInt8} (h : b.toNat < 128) (bs : List UInt8) (pos : Nat) :
    decodeOne b bs pos = .ok (b.toNat, bs) := by
  have : b < 0x80 := UInt8.lt_iff_toNat_lt.mpr h
  simp [decodeOne, this]

/-- A lead byte of a character of two bytes or more passes the tests on it. -/
theorem lead_tests {b : UInt8} (h : 0xC2 ≤ b.toNat) (h' : b.toNat ≤ 0xF4) :
    ¬ b < 0x80 ∧ (b < 0xC2 || b > 0xF4) = false := by
  simp only [UInt8.lt_iff_toNat_lt, gt_iff_lt, UInt8.reduceToNat, Bool.or_eq_false_iff,
    decide_eq_false_iff_not]
  omega

theorem decodeOne_two {b c : UInt8} (hb : 0xC2 ≤ b.toNat) (hb' : b.toNat < 0xE0)
    (hc : continues b c) (bs : List UInt8) (pos : Nat) :
    decodeOne b (c :: bs) pos = .ok (b.toNat % 32 * 64 + low c, bs) := by
  have ⟨h1, h2⟩ := lead_tests hb (by omega)
  have h3 : b < 0xE0 := UInt8.lt_iff_toNat_lt.mpr hb'
  simp only [decodeOne, h1, h2, hc, h3, ↓reduceIte, Bool.not_true, Bool.false_eq_true]

theorem decodeOne_three {b c d : UInt8} (hb : 0xE0 ≤ b.toNat) (hb' : b.toNat < 0xF0)
    (hc : continues b c) (hd : isContinuation d) (bs : List UInt8) (pos : Nat) :
    decodeOne b (c :: d :: bs) pos =
      .ok ((b.toNat % 16 * 64 + low c) * 64 + low d, bs) := by
  have ⟨h1, h2⟩ := lead_tests (b := b) (by omega) (by omega)
  have h3 : ¬ b < 0xE0 := by rw [UInt8.lt_iff_toNat_lt]; simpa using hb
  have h4 : b < 0xF0 := UInt8.lt_iff_toNat_lt.mpr hb'
  simp only [decodeOne, h1, h2, hc, hd, h3, h4, ↓reduceIte, Bool.not_true, Bool.false_eq_true]

theorem decodeOne_four {b c d e : UInt8} (hb : 0xF0 ≤ b.toNat) (hb' : b.toNat ≤ 0xF4)
    (hc : continues b c) (hd : isContinuation d) (he : isContinuation e)
    (bs : List UInt8) (pos : Nat) :
    decodeOne b (c :: d :: e :: bs) pos =
      .ok (((b.toNat % 8 * 64 + low c) * 64 + low d) * 64 + low e, bs) := by
  have ⟨h1, h2⟩ := lead_tests (b := b) (by omega) hb'
  have h3 : ¬ b < 0xE0 := by rw [UInt8.lt_iff_toNat_lt]; simp; omega
  have h4 : ¬ b < 0xF0 := by rw [UInt8.lt_iff_toNat_lt]; simpa using hb
  simp only [decodeOne, h1, h2, hc, hd, he, h3, h4, ↓reduceIte, Bool.not_true, Bool.false_eq_true]

/-- Reading the bytes of a character gives its code point and leaves what follows. -/
theorem decodeOne_utf8EncodeChar (c : Char) (bs : List UInt8) (pos : Nat) :
    ∃ b rest, String.utf8EncodeChar c = b :: rest ∧
      decodeOne b (rest ++ bs) pos = .ok (c.toNat, bs) := by
  have hv : c.val.toNat < 0xD800 ∨ 0xDFFF < c.val.toNat ∧ c.val.toNat < 0x110000 := c.valid
  rw [show c.toNat = c.val.toNat from rfl]
  unfold String.utf8EncodeChar
  generalize c.val.toNat = n at hv
  have hbyte (k : Nat) (hk : k < 256) : (UInt8.ofNat k).toNat = k := by
    simp [UInt8.toNat_ofNat', Nat.mod_eq_of_lt hk]
  have htail (k : Nat) : (UInt8.ofNat (k % 64 + 128)).toNat = k % 64 + 128 := hbyte _ (by omega)
  have hlow (k : Nat) : low (UInt8.ofNat (k % 64 + 128)) = k % 64 := by
    rw [low, htail]
    omega
  have hcont (k : Nat) : isContinuation (UInt8.ofNat (k % 64 + 128)) := by
    rw [isContinuation_iff, htail]
    omega
  simp only
  split_ifs with h1 h2 h3
  · have hb := hbyte n (by omega)
    exact ⟨_, _, rfl, by rw [List.nil_append, decodeOne_one (by omega), hb]⟩
  · have hb := hbyte (n / 64 % 32 + 192) (by omega)
    refine ⟨_, _, rfl, ?_⟩
    rw [List.cons_append, List.nil_append, decodeOne_two (by omega) (by omega)
      (by rw [continues_iff, htail, hb]; omega), hb, hlow]
    congr 2
    omega
  · have hb := hbyte (n / 4096 % 16 + 224) (by omega)
    refine ⟨_, _, rfl, ?_⟩
    simp only [List.cons_append, List.nil_append]
    rw [decodeOne_three (by omega) (by omega)
      (by rw [continues_iff, htail, hb]; omega) (hcont _), hb, hlow, hlow]
    congr 2
    omega
  · have hb := hbyte (n / 262144 % 8 + 240) (by omega)
    refine ⟨_, _, rfl, ?_⟩
    simp only [List.cons_append, List.nil_append]
    rw [decodeOne_four (by omega) (by omega)
      (by rw [continues_iff, htail, hb]; omega) (hcont _) (hcont _), hb, hlow, hlow, hlow]
    congr 2
    omega

/-! ## Texts -/

theorem decodeFrom_encode (cs : List Char) (pos : Nat) (done : List Char) :
    decodeFrom (encode cs) pos done = .ok (done.reverse ++ cs) := by
  induction cs generalizing pos done with
  | nil => simp [encode, decodeFrom]
  | cons c cs ih =>
    obtain ⟨b, rest, he, hd⟩ := decodeOne_utf8EncodeChar c (encode cs) pos
    have hs : encode (c :: cs) = b :: (rest ++ encode cs) := by
      rw [encode, List.flatMap_cons, he]
      rfl
    rw [hs, decodeFrom]
    split
    · rename_i e h
      simp [hd] at h
    · rename_i n r h
      rw [hd] at h
      obtain ⟨rfl, rfl⟩ := Prod.mk.inj (Except.ok.inj h)
      rw [ih]
      simp [Char.ofNat_toNat]

/-- Text survives its encoding. -/
theorem decode_encode (cs : List Char) : decode (encode cs) = .ok cs := by
  rw [decode, decodeFrom_encode]
  rfl

@[simp] theorem encode_nil : encode [] = [] := rfl

theorem encode_append (cs ds : List Char) : encode (cs ++ ds) = encode cs ++ encode ds := by
  rw [encode, List.flatMap_append]
  rfl

theorem encode_injective {cs ds : List Char} (h : encode cs = encode ds) : cs = ds := by
  have hd := decode_encode cs
  rw [h, decode_encode] at hd
  exact (Except.ok.inj hd).symm

/-- A character of more than one byte ends in none of ASCII. -/
theorem utf8EncodeChar_last (c : Char) :
    (c.toNat < 128 ∧ String.utf8EncodeChar c = [UInt8.ofNat c.toNat]) ∨
      ∃ bs b, String.utf8EncodeChar c = bs ++ [b] ∧ 128 ≤ b.toNat := by
  have hhigh (n : Nat) : 128 ≤ (UInt8.ofNat (n % 64 + 128)).toNat := by
    rw [UInt8.toNat_ofNat']
    omega
  rw [show c.toNat = c.val.toNat from rfl]
  unfold String.utf8EncodeChar
  generalize c.val.toNat = n
  simp only
  split_ifs
  · exact .inl ⟨by omega, rfl⟩
  · exact .inr ⟨[_], _, rfl, hhigh n⟩
  · exact .inr ⟨[_, _], _, rfl, hhigh n⟩
  · exact .inr ⟨[_, _, _], _, rfl, hhigh n⟩

/-! ## Character boundaries -/

/-- A character of the text starts at the byte, or the text ends there. -/
def Boundary (cs : List Char) (n : Nat) : Prop :=
  ∃ front back, cs = front ++ back ∧ (encode front).length = n

theorem boundary_zero (cs : List Char) : Boundary cs 0 := ⟨[], cs, rfl, rfl⟩

theorem boundary_le {cs : List Char} {n : Nat} (h : Boundary cs n) : n ≤ (encode cs).length := by
  obtain ⟨front, back, rfl, rfl⟩ := h
  rw [encode_append, List.length_append]
  omega

theorem exists_encode_drop {cs : List Char} {n : Nat} (h : Boundary cs n) :
    ∃ ds, (encode cs).drop n = encode ds := by
  obtain ⟨front, back, rfl, rfl⟩ := h
  exact ⟨back, by rw [encode_append, List.drop_left]⟩

/-- What stands between two boundaries is encoded text. -/
theorem exists_encode_between {cs : List Char} {m n : Nat} (hm : Boundary cs m)
    (hn : Boundary cs n) : ∃ ds, ((encode cs).take n).drop m = encode ds := by
  obtain ⟨front, back, rfl, rfl⟩ := hm
  obtain ⟨front', back', he, rfl⟩ := hn
  have htake : (encode (front ++ back)).take (encode front').length = encode front' := by
    rw [he, encode_append, List.take_left]
  rw [htake]
  rcases List.append_eq_append_iff.mp he with ⟨mid, rfl, -⟩ | ⟨mid, rfl, -⟩
  · exact ⟨mid, by rw [encode_append, List.drop_left]⟩
  · refine ⟨[], ?_⟩
    rw [encode_append, List.drop_eq_nil_of_le (by rw [List.length_append]; omega)]
    rfl

/-- Behind a character of one byte comes a boundary again. -/
theorem Boundary.succ {cs : List Char} {n : Nat} {b : UInt8} (h : Boundary cs n)
    (hb : (encode cs)[n]? = some b) (hlow : b.toNat < 128) : Boundary cs (n + 1) := by
  obtain ⟨front, back, rfl, rfl⟩ := h
  rw [encode_append, List.getElem?_append_right (by omega), Nat.sub_self] at hb
  cases back with
  | nil => simp at hb
  | cons c back =>
    obtain ⟨b', rest, he, hd⟩ := decodeOne_utf8EncodeChar c [] 0
    have hc : encode [c] = b' :: rest := by simp [encode, he]
    have hb' : b' = b := by simpa [encode, he] using hb
    rw [hb', decodeOne_one hlow] at hd
    have hrest : rest = [] := by simpa using (Prod.mk.inj (Except.ok.inj hd)).2
    exact ⟨front ++ [c], back, by simp, by rw [encode_append, List.length_append, hc, hrest]; rfl⟩

theorem boundary_iff {cs : List Char} {n : Nat} :
    Boundary cs n ↔ ∃ front ∈ cs.inits, (encode front).length = n := by
  constructor
  · rintro ⟨front, back, rfl, h⟩
    exact ⟨front, (List.mem_inits _ _).mpr (List.prefix_append _ _), h⟩
  · rintro ⟨front, hf, h⟩
    obtain ⟨back, hback⟩ := (List.mem_inits _ _).mp hf
    exact ⟨front, back, hback.symm, h⟩

instance (cs : List Char) (n : Nat) : Decidable (Boundary cs n) :=
  decidable_of_iff _ boundary_iff.symm

end SceneSync.Text
