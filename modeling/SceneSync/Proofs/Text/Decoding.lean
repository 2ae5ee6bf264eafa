import Mathlib
import SceneSync.Proofs.Text.Encoding

/-!
# What can be read

Bytes are read as UTF-8 exactly when they are the encoding of a text, and what is
read is that text. So a refusal says that there is no such text.
-/

namespace SceneSync.Text

/-! ## One character -/

/-- The forms in which a character can stand. -/
theorem decodeOne_cases {b : UInt8} {bs r : List UInt8} {pos n : Nat}
    (h : decodeOne b bs pos = .ok (n, r)) :
    (b.toNat < 128 ∧ bs = r ∧ n = b.toNat) ∨
    (∃ c, 0xC2 ≤ b.toNat ∧ b.toNat < 0xE0 ∧ continues b c = true ∧ bs = c :: r ∧
      n = b.toNat % 32 * 64 + low c) ∨
    (∃ c d, 0xE0 ≤ b.toNat ∧ b.toNat < 0xF0 ∧ continues b c = true ∧ isContinuation d = true ∧
      bs = c :: d :: r ∧ n = (b.toNat % 16 * 64 + low c) * 64 + low d) ∨
    ∃ c d e, 0xF0 ≤ b.toNat ∧ b.toNat ≤ 0xF4 ∧ continues b c = true ∧
      isContinuation d = true ∧ isContinuation e = true ∧ bs = c :: d :: e :: r ∧
      n = ((b.toNat % 8 * 64 + low c) * 64 + low d) * 64 + low e := by
  unfold decodeOne at h
  simp only [UInt8.lt_iff_toNat_lt, gt_iff_lt, UInt8.reduceToNat, Bool.or_eq_true,
    decide_eq_true_eq, Bool.not_eq_true', ← Bool.not_eq_true] at h
  repeat' split at h
  all_goals try contradiction
  all_goals
    obtain ⟨rfl, rfl⟩ := Prod.mk.inj (Except.ok.inj h)
  · exact .inl ⟨by omega, rfl, rfl⟩
  · exact .inr (.inl ⟨_, by omega, by omega, by simp_all, rfl, rfl⟩)
  · exact .inr (.inr (.inl ⟨_, _, by omega, by omega, by simp_all, by simp_all, rfl, rfl⟩))
  · exact .inr (.inr (.inr ⟨_, _, _, by omega, by omega, by simp_all, by simp_all, by simp_all,
      rfl, rfl⟩))

theorem ofNat_eq_of_toNat {b : UInt8} {k : Nat} (h : k = b.toNat) : UInt8.ofNat k = b := by
  rw [h, UInt8.ofNat_toNat]

/-- A code point that is read is that of a character, whose encoding has been taken. -/
theorem utf8EncodeChar_of_decodeOne {b : UInt8} {bs r : List UInt8} {pos n : Nat}
    (h : decodeOne b bs pos = .ok (n, r)) :
    String.utf8EncodeChar (Char.ofNat n) ++ r = b :: bs := by
  have hvalid {k : Nat} (hk : k < 0xD800 ∨ 0xDFFF < k ∧ k < 0x110000) :
      (Char.ofNat k).val.toNat = k := by
    have hchar := Char.toNat_ofNat k
    rw [if_pos hk] at hchar
    exact hchar
  unfold String.utf8EncodeChar
  rcases decodeOne_cases h with ⟨hb, rfl, hn⟩ | ⟨c, hb, hb', hc, rfl, hn⟩ |
    ⟨c, d, hb, hb', hc, hd, rfl, hn⟩ | ⟨c, d, e, hb, hb', hc, hd, he, rfl, hn⟩
  · rw [hvalid (by omega)]
    simp only [hn]
    rw [if_pos (by omega), UInt8.ofNat_toNat]
    rfl
  · obtain ⟨hc, hc', -⟩ := (continues_iff b c).mp hc
    rw [low] at hn
    rw [hvalid (by omega)]
    simp only
    rw [if_neg (by omega), if_pos (by omega), ofNat_eq_of_toNat (b := b) (by omega),
      ofNat_eq_of_toNat (b := c) (by omega)]
    rfl
  · obtain ⟨hc, hc', hlong, hhigh, -⟩ := (continues_iff b c).mp hc
    obtain ⟨hd, hd'⟩ := (isContinuation_iff d).mp hd
    rw [low, low] at hn
    rw [hvalid (by omega)]
    simp only
    rw [if_neg (by omega), if_neg (by omega), if_pos (by omega),
      ofNat_eq_of_toNat (b := b) (by omega), ofNat_eq_of_toNat (b := c) (by omega),
      ofNat_eq_of_toNat (b := d) (by omega)]
    rfl
  · obtain ⟨hc, hc', -, -, hlong, hhigh⟩ := (continues_iff b c).mp hc
    obtain ⟨hd, hd'⟩ := (isContinuation_iff d).mp hd
    obtain ⟨he, he'⟩ := (isContinuation_iff e).mp he
    rw [low, low, low] at hn
    rw [hvalid (by omega)]
    simp only
    rw [if_neg (by omega), if_neg (by omega), if_neg (by omega),
      ofNat_eq_of_toNat (b := b) (by omega), ofNat_eq_of_toNat (b := c) (by omega),
      ofNat_eq_of_toNat (b := d) (by omega), ofNat_eq_of_toNat (b := e) (by omega)]
    rfl

/-! ## Texts -/

theorem encode_inj {cs ds : List Char} : encode cs = encode ds ↔ cs = ds :=
  ⟨fun h => encode_injective h, congrArg encode⟩

/-- What is read from some place on is what was encoded there. -/
theorem encode_of_decodeFrom {bs : List UInt8} {pos : Nat} {done cs : List Char}
    (h : decodeFrom bs pos done = .ok cs) : ∃ ds, cs = done.reverse ++ ds ∧ encode ds = bs := by
  fun_induction decodeFrom bs pos done with
  | case1 pos done => exact ⟨[], by simpa using (Except.ok.inj h).symm, rfl⟩
  | case2 => cases h
  | case3 pos done b rest n r hone _ ih =>
    obtain ⟨ds, rfl, hds⟩ := ih h
    refine ⟨Char.ofNat n :: ds, by simp, ?_⟩
    rw [encode, List.flatMap_cons, ← encode, hds, utf8EncodeChar_of_decodeOne hone]

theorem decode_eq_ok_iff {bs : List UInt8} {cs : List Char} :
    decode bs = .ok cs ↔ bs = encode cs := by
  constructor
  · intro h
    obtain ⟨ds, rfl, hds⟩ := encode_of_decodeFrom h
    simpa using hds.symm
  · rintro rfl
    exact decode_encode cs

/-- Bytes are refused when they encode nothing. -/
theorem decode_eq_error_iff {bs : List UInt8} :
    (∃ e, decode bs = .error e) ↔ ∀ cs, bs ≠ encode cs := by
  simp only [ne_eq, ← decode_eq_ok_iff]
  cases decode bs <;> simp

/-! ## Marked texts -/

def byteOrderMark : Char := '\ufeff'

/-- A text without a byte order mark at its head. -/
def unmarked : List Char → List Char
  | [] => []
  | c :: cs => if c = byteOrderMark then cs else c :: cs

theorem encode_mark (cs : List Char) :
    encode (byteOrderMark :: cs) = 0xEF :: 0xBB :: 0xBF :: encode cs := rfl

/-- Only the mark is encoded in its bytes. -/
theorem exists_of_encode_mark {cs : List Char} {bs : List UInt8}
    (h : encode cs = 0xEF :: 0xBB :: 0xBF :: bs) :
    ∃ ds, cs = byteOrderMark :: ds ∧ encode ds = bs := by
  have hcs : decode (0xEF :: 0xBB :: 0xBF :: bs) = .ok cs := decode_eq_ok_iff.mpr h.symm
  have hone : decodeOne 0xEF (0xBB :: 0xBF :: bs) 0 = .ok (byteOrderMark.toNat, bs) :=
    decodeOne_three (by decide) (by decide) (by decide) (by decide) bs 0
  rw [decode, decodeFrom] at hcs
  split at hcs
  · cases hcs
  · rename_i n r hn
    obtain ⟨rfl, rfl⟩ := Prod.mk.inj (Except.ok.inj (hone.symm.trans hn))
    rw [Char.ofNat_toNat] at hcs
    obtain ⟨ds, rfl, hds⟩ := encode_of_decodeFrom hcs
    exact ⟨ds, by simp, hds⟩

theorem decodeMarked_eq_ok_iff {bs : List UInt8} {cs : List Char} :
    decodeMarked bs = .ok cs ↔ ∃ ds, bs = encode ds ∧ cs = unmarked ds := by
  rw [decodeMarked.eq_def]
  split
  · rename_i rest
    rw [decode_eq_ok_iff]
    constructor
    · rintro rfl
      exact ⟨byteOrderMark :: cs, (encode_mark cs).symm, by simp [unmarked]⟩
    · rintro ⟨ds, hds, rfl⟩
      obtain ⟨es, rfl, rfl⟩ := exists_of_encode_mark hds.symm
      simp [unmarked]
  · rename_i hmark
    rw [decode_eq_ok_iff]
    have hsame {ds : List Char} (hds : bs = encode ds) : unmarked ds = ds := by
      cases ds with
      | nil => rfl
      | cons c ds =>
        rw [unmarked, if_neg]
        rintro rfl
        exact hmark _ hds
    constructor
    · intro h
      exact ⟨cs, h, (hsame h).symm⟩
    · rintro ⟨ds, hds, rfl⟩
      rwa [hsame hds]

theorem decodeMarked_encode (cs : List Char) : decodeMarked (encode cs) = .ok (unmarked cs) :=
  decodeMarked_eq_ok_iff.mpr ⟨cs, rfl, rfl⟩

/-- A mark does not change which bytes are refused. -/
theorem decodeMarked_eq_error_iff {bs : List UInt8} :
    (∃ e, decodeMarked bs = .error e) ↔ ∀ cs, bs ≠ encode cs := by
  constructor
  · rintro ⟨e, he⟩ cs rfl
    cases he.symm.trans (decodeMarked_encode cs)
  · intro h
    cases hd : decodeMarked bs with
    | error e => exact ⟨e, rfl⟩
    | ok cs =>
      obtain ⟨ds, hds, -⟩ := decodeMarked_eq_ok_iff.mp hd
      exact absurd hds (h ds)

end SceneSync.Text
